import PeerNet.Receiver.Links
import PeerNet.Sender.Chained

/-
  Integrity of the upload list over a run.

  In every run of GETs, ACKs, passes of `peer_cc` and direct
  calls of `add_sender_list` and `del_sender_list` the nodes
  are one doubly linked list of exactly the entries that were
  added and not deleted since, newest first, and no operation
  follows a freed node. Where only `process_get` adds, every
  peer has at most one upload, and `find_sender_list` finds
  it.

  Key definitions include:
    * `WellLinked`
    * `ListsLive`
    * `OnePerPeer`

  Key results include:
    * `LinkedNode.handle_after`
    * `upload_list_of_run`
-/

------------------------------------------------------------
-- What One Event Does
------------------------------------------------------------

namespace PeerNet

open DoublyLinked UploadHeap Prog

/- Is it a direct call of `add_sender_list`? -/
def ListEvent.AddsDirectly :
    ListEvent → Prop
| .add _ _ _ _ _ => True
| _ => False

/- The entry is for a peer that had none in the list. -/
def ServedTo
    (s : LinkedNode)
    (e : SenderEntry) : Prop :=
  ∃ peer, e.peer = some peer ∧
    ∀ x ∈ live s.uploads.calls,
      stopsAt s.node.config.peer peer x.2 = false

/-
  What an event makes of a process: entries are deleted, or
  one is added in front.
-/
structure Moved
    (e : ListEvent)
    (s t : LinkedNode) : Prop where
  tracks : ∃ xs, Tracks t.uploads xs
  ids : ∀ p,
    (t.node.config.peer p).id = (s.node.config.peer p).id
  entries :
    (live t.uploads.calls).Sublist (live s.uploads.calls) ∨
      ∃ r entry,
        live t.uploads.calls =
            (r, entry) :: live s.uploads.calls ∧
          (¬ e.AddsDirectly → ServedTo s entry)

/- What a call leaves behind: it sets no fault itself. -/
structure After
    (e : ListEvent)
    (s t : LinkedNode) : Prop
    extends Moved e s t where
  fault : t.fault = s.fault

section

variable {env : Env} {e : ListEvent} {s t : LinkedNode}
variable {xs ys : List (SenderRef × SenderEntry)}

/- Nothing but the node's configuration is looked at. -/
theorem After.same
    (h : Tracks s.uploads xs) :
    After e s s :=
  ⟨⟨⟨xs, h⟩, fun _ => rfl,
    .inl (List.Sublist.refl _)⟩, rfl⟩

/- Some entries are left, as they were. -/
theorem After.left
    (h : Tracks s.uploads xs)
    (hTracks : Tracks t.uploads ys)
    (hSub : (ys.map entryKey).Sublist (xs.map entryKey))
    (hSame : SameRest s t) :
    After e s t := by
  refine ⟨⟨⟨ys, hTracks⟩, ?_, .inl ?_⟩, hSame.fault⟩
  · intro p
    rw [hSame.config]
  · rw [hTracks.calls, h.calls]
    exact hSub

namespace LinkedNode

/- The wp of a call under the conditions of a run. -/
def Keeps
    {α : Type}
    (x : UploadProg α)
    (e : ListEvent)
    (s : LinkedNode) : Prop :=
  wp x (fun _ t => After e s t)
    (fun fault t => After e s t ∧ fault ≠ .freedSender) s

theorem keeps_stop
    {α : Type}
    {fault : UploadFault}
    (h : Tracks s.uploads xs)
    (hFault : fault ≠ .freedSender) :
    Keeps (throw fault : UploadProg α) e s :=
  ⟨.same h, hFault⟩

theorem keeps_pure
    {α : Type}
    (h : Tracks s.uploads xs)
    (a : α) :
    Keeps (pure a : UploadProg α) e s :=
  After.same h

theorem wp_findSenderList
    {Q : Option SenderRef → LinkedNode → Prop}
    {E : UploadFault → LinkedNode → Prop}
    (h : Tracks s.uploads xs)
    (peer : PeerRef) :
    wp (LinkedNode.findSenderList peer) Q E s ↔
      Q ((xs.find? fun x =>
        stopsAt s.node.config.peer peer x.2).map
          Prod.fst) s := by
  unfold LinkedNode.findSenderList
  rw [wp_bind, wp_get]
  simp only [h.findSenderList s.node.config.peer peer,
    wp_pure]

/- A new entry in front. -/
theorem keeps_add
    {r : SenderRef}
    {entry : SenderEntry}
    (h : Tracks s.uploads xs)
    (hFresh : s.uploads.chain.mem r = none)
    (hNew : entry.added = entry)
    (hServed : ¬ e.AddsDirectly → ServedTo s entry) :
    wp (onUploads (UploadHeap.addSenderList r entry))
      (fun _ t => After e s t)
      (fun fault t => After e s t ∧ fault ≠ .freedSender)
      s := by
  rcases h.addSenderList hFresh hNew with
    ⟨u, hAdd, hTracks, hLive⟩
  rw [wp_onUploads, hAdd]
  exact ⟨⟨⟨_, hTracks⟩, fun _ => rfl,
    .inr ⟨r, entry, hLive, hServed⟩⟩, rfl⟩

theorem servedTo_of_find
    {peer : PeerRef}
    {entry : SenderEntry}
    (h : Tracks s.uploads xs)
    (hFound :
      (xs.find? fun x =>
        stopsAt s.node.config.peer peer x.2) = none)
    (hPeer : entry.peer = some peer) :
    ServedTo s entry := by
  refine ⟨peer, hPeer, fun x hx => ?_⟩
  rw [h.calls] at hx
  rcases List.mem_map.mp hx with ⟨y, hy, rfl⟩
  exact Bool.eq_false_iff.mpr
    (List.find?_eq_none.mp hFound y hy)

/- `send_data`: at most one entry, for the peer at `dest`. -/
theorem keeps_sendData
    {sender : SenderRef}
    {dest : Addr}
    {hash : Hash}
    {peer : PeerRef}
    (h : Tracks s.uploads xs)
    (hFresh : s.uploads.chain.mem sender = none)
    (hPeer : peerWithAddr dest s.node.config = some peer)
    (hServed :
      ∀ entry : SenderEntry, entry.peer = some peer →
        ServedTo s entry) :
    Keeps (sendData env sender dest hash) e s := by
  unfold Keeps sendData
  rw [wp_bind, wp_get]
  dsimp only
  split
  · exact keeps_stop h (by simp)
  · exact keeps_pure h _
  · rw [wp_ite]
    refine ⟨fun _ => keeps_pure h _, fun _ => ?_⟩
    rw [hPeer]
    dsimp only
    rw [wp_bind]
    exact wp_mono
      (keeps_add h hFresh rfl fun _ => hServed _ rfl)
      (fun _ _ ht => ht) (fun _ _ ht => ht)

/- `process_get`: at most one entry, for a peer without one. -/
theorem keeps_processGet
    {sender : SenderRef}
    {src : Addr}
    {packet : Packet}
    (h : Tracks s.uploads xs)
    (hFresh : s.uploads.chain.mem sender = none) :
    Keeps (processGet env sender src packet) e s := by
  unfold Keeps processGet
  rw [wp_bind, wp_get]
  dsimp only
  cases hPeer : peerWithAddr src s.node.config with
  | none => exact keeps_pure h _
  | some peer =>
      dsimp only
      rw [wp_bind, wp_findSenderList h]
      cases hFound : xs.find? fun x =>
          stopsAt s.node.config.peer peer x.2 with
      | some x => exact keeps_pure h _
      | none =>
          dsimp only [Option.map_none]
          rw [wp_ite]
          refine ⟨fun _ => keeps_pure h _, fun _ => ?_⟩
          rw [wp_ite]
          refine ⟨fun _ => keeps_stop h (by simp),
            fun _ => ?_⟩
          refine keeps_sendData h hFresh hPeer fun entry =>
            servedTo_of_find h hFound

/- `process_ack`: the entry it finds is written in place. -/
theorem keeps_processAck
    {src : Addr}
    {packet : Packet}
    (h : Tracks s.uploads xs) :
    Keeps (processAck src packet) e s := by
  unfold Keeps processAck
  rw [wp_bind, wp_get]
  dsimp only
  split
  · exact keeps_pure h _
  · next peer hPeer =>
      rw [wp_bind, wp_findSenderList h]
      cases hFound : xs.find? fun x =>
          stopsAt s.node.config.peer peer x.2 with
      | none => exact keeps_pure h _
      | some x =>
          rcases List.append_of_mem
            (List.mem_of_find?_eq_some hFound) with
            ⟨zs, ys, rfl⟩
          rcases h.update (f := fun e =>
            e.write (ackSender packet.header.ackNum
              e.sender)) rfl with ⟨u, hUpdate, hTracks, _⟩
          dsimp only [Option.map_some]
          rw [wp_bind, wp_onUploads, hUpdate]
          refine .left h hTracks ?_ ⟨rfl, rfl⟩
          rw [List.map_append, List.map_append]
          exact List.Sublist.refl _

/- `peer_cc`: entries are deleted, the others stay. -/
theorem keeps_peerCc
    (h : Tracks s.uploads xs) :
    Keeps (peerCc env) e s := by
  unfold Keeps peerCc
  rw [wp_bind, wp_get]
  dsimp only
  rw [h.holds.head]
  apply wp_mono
    (ccLoop_spec env [] h h.length_le)
  · intro _ t ht
    exact .left h ht.1 (passed_sublist env _ xs) ht.2
  · intro fault t ht
    rcases ht with ⟨⟨left, hLeft, hSub⟩, hSame, hFault⟩
    exact ⟨.left h hLeft hSub hSame, hFault⟩

/- Every call of a run. -/
theorem handle_after
    (env : Env)
    (h : Tracks s.uploads xs)
    (hAllow : Allowed s e) :
    Keeps (handle env e) e s := by
  cases e with
  | get sender src packet =>
      unfold Keeps handle
      rw [wp_discard]
      exact keeps_processGet h hAllow
  | ack src packet =>
      unfold Keeps handle
      rw [wp_discard]
      exact keeps_processAck h
  | peerCc => exact keeps_peerCc h
  | add sender hash packets numPackets peer =>
      exact keeps_add h hAllow rfl
        fun hNot => absurd trivial hNot
  | del sender =>
      have hIn : sender ∈ refs xs := by
        rw [← h.refs_live]
        exact hAllow
      rcases List.mem_map.mp hIn with ⟨x, hx, rfl⟩
      rcases List.append_of_mem hx with ⟨zs, ys, rfl⟩
      have hDel := h.delSenderList
      unfold Keeps handle
      rw [wp_onUploads]
      split at hDel
      · rcases hDel with ⟨u, hDel, hTracks⟩
        rw [hDel]
        refine .left h hTracks ?_ ⟨rfl, rfl⟩
        rw [List.map_append, List.map_append]
        exact (List.sublist_cons_self _ _).append_left _
      · rw [hDel]
        exact ⟨.same h, by simp⟩
  | rest node =>
      exact ⟨⟨⟨xs, h⟩, hAllow,
        .inl (List.Sublist.refl _)⟩, rfl⟩

end LinkedNode

end

end PeerNet

------------------------------------------------------------
-- Runs
------------------------------------------------------------

namespace PeerNet

open DoublyLinked UploadHeap Prog LinkedNode Runs

/-
  The links of the nodes: the first has no `prev`, and a
  `next` and the `prev` it leads to point at each other.
-/
structure WellLinked
    (u : UploadHeap) : Prop where
  firstPrev : ∀ x node,
    u.chain.head = some x → u.chain.mem x = some node →
      node.prev = none
  nextPrev : ∀ x node y,
    u.chain.mem x = some node → node.next = some y →
      ∃ after, u.chain.mem y = some after ∧
        after.prev = some x
  prevNext : ∀ x node y,
    u.chain.mem x = some node → node.prev = some y →
      ∃ before, u.chain.mem y = some before ∧
        before.next = some x

/-
  Following `next` from `upload` meets the entries that were
  added and not deleted since, newest first, each once and
  each with the hash, packets and peer it was added with.
-/
def ListsLive
    (u : UploadHeap) : Prop :=
  ∃ xs, Traversal u.chain.mem u.chain.head xs ∧
    (refs xs).Nodup ∧ xs.map entryKey = live u.calls

/- The id of an entry's peer. -/
def SenderEntry.peerId
    (peerOf : PeerRef → BtPeer)
    (e : SenderEntry) : Option Int :=
  e.peer.map fun p => (peerOf p).id

/-
  Every entry has a peer and no two have the same peer id;
  `find_sender_list` returns the entry of the peer's id, and
  `NULL` if there is none.
-/
structure OnePerPeer
    (s : LinkedNode) : Prop where
  peer : ∀ x ∈ live s.uploads.calls, x.2.peer ≠ none
  distinct :
    ((live s.uploads.calls).map fun x =>
      x.2.peerId s.node.config.peer).Nodup
  found : ∀ peer, ∃ found,
    s.uploads.findSenderList s.node.config.peer peer =
        some found ∧
      (∀ r, found = some r →
        r ∈ refs (live s.uploads.calls)) ∧
      ∀ x ∈ live s.uploads.calls,
        found = some x.1 ↔
          x.2.peerId s.node.config.peer =
            some (s.node.config.peer peer).id

section

variable {env : Env} {e : ListEvent} {s t : LinkedNode}
variable {xs : List (SenderRef × SenderEntry)}

theorem Tracks.wellLinked
    {u : UploadHeap}
    (h : Tracks u xs) :
    WellLinked u where
  firstPrev _ _ hHead hCell := h.holds.first_prev hHead hCell
  nextPrev _ _ _ hCell hNext := h.holds.next_prev hCell hNext
  prevNext _ _ _ hCell hPrev := h.holds.prev_next hCell hPrev

theorem Tracks.listsLive
    {u : UploadHeap}
    (h : Tracks u xs) :
    ListsLive u :=
  ⟨xs, h.holds.traversal, h.holds.nodup, h.calls.symm⟩

theorem stopsAt_iff
    (peerOf : PeerRef → BtPeer)
    (peer : PeerRef)
    (e : SenderEntry) :
    stopsAt peerOf peer e = true ↔
      e.peerId peerOf = some (peerOf peer).id := by
  unfold stopsAt SenderEntry.peerId
  cases e.peer with
  | none => simp
  | some p => simp

/- A process whose list is what its calls left. -/
structure ListKept
    (s : LinkedNode) : Prop where
  tracks : ∃ xs, Tracks s.uploads xs
  fault : s.fault ≠ some .freedSender

/- One step of a run. -/
theorem step_listKept
    (h : ListKept s)
    (hAllow : Allowed s e) :
    ListKept (s.step env e) ∧ Moved e s (s.step env e) := by
  rcases h.tracks with ⟨xs, hTracks⟩
  unfold LinkedNode.step
  split
  · exact ⟨h, (After.same hTracks).toMoved⟩
  · have hKeeps := handle_after env hTracks hAllow
    unfold Keeps wp at hKeeps
    cases hRun : LinkedNode.handle env e s with
    | ok _ t =>
        rw [hRun] at hKeeps
        refine ⟨⟨hKeeps.tracks, ?_⟩, hKeeps.toMoved⟩
        rw [hKeeps.fault]
        exact h.fault
    | error fault t =>
        rw [hRun] at hKeeps
        refine ⟨⟨hKeeps.1.tracks, ?_⟩, hKeeps.1.tracks,
          hKeeps.1.ids, hKeeps.1.entries⟩
        simpa using hKeeps.2

/- The ids are those of the peers. -/
theorem Moved.peerId
    (h : Moved e s t)
    (entry : SenderEntry) :
    entry.peerId t.node.config.peer =
      entry.peerId s.node.config.peer := by
  unfold SenderEntry.peerId
  simp only [h.ids]

/- Every entry has a peer, and no peer has two. -/
structure Exclusive
    (s : LinkedNode) : Prop where
  peer : ∀ x ∈ live s.uploads.calls, x.2.peer ≠ none
  distinct :
    ((live s.uploads.calls).map fun x =>
      x.2.peerId s.node.config.peer).Nodup

/- `process_get` adds no second entry of a peer. -/
theorem Moved.exclusive
    (h : Moved e s t)
    (hServes : ¬ e.AddsDirectly)
    (hOld : Exclusive s) :
    Exclusive t := by
  have hIds :
      (fun x : SenderRef × SenderEntry =>
        x.2.peerId t.node.config.peer) =
      fun x => x.2.peerId s.node.config.peer :=
    funext fun x => h.peerId x.2
  rcases h.entries with hSub | ⟨r, entry, hLive, hServed⟩
  · refine ⟨fun x hx => hOld.peer x (hSub.subset hx), ?_⟩
    rw [hIds]
    exact hOld.distinct.sublist (hSub.map _)
  · rcases hServed hServes with ⟨peer, hPeer, hNone⟩
    refine ⟨?_, ?_⟩
    · intro x hx
      rw [hLive] at hx
      rcases List.mem_cons.mp hx with rfl | hx
      · simp [hPeer]
      · exact hOld.peer x hx
    · rw [hIds, hLive, List.map_cons, List.nodup_cons]
      refine ⟨?_, hOld.distinct⟩
      intro hIn
      rcases List.mem_map.mp hIn with ⟨x, hx, hEq⟩
      have hStops :
          stopsAt s.node.config.peer peer x.2 = true := by
        rw [stopsAt_iff]
        refine hEq.trans ?_
        simp only [SenderEntry.peerId, hPeer, Option.map_some]
      rw [hNone x hx] at hStops
      cases hStops

/- The search finds a peer's only entry. -/
theorem Exclusive.found
    (h : Exclusive s)
    (hTracks : Tracks s.uploads xs) :
    OnePerPeer s := by
  refine ⟨h.peer, h.distinct, fun peer => ?_⟩
  let ours (x : SenderRef × SenderEntry) : Bool :=
    stopsAt s.node.config.peer peer x.2
  have hSearch :=
    hTracks.findSenderList s.node.config.peer peer
  have hDistinct :
      (xs.map fun x =>
        x.2.peerId s.node.config.peer).Nodup := by
    have hLive := h.distinct
    rw [hTracks.calls, List.map_map] at hLive
    exact hLive
  refine ⟨(xs.find? ours).map Prod.fst, hSearch, ?_, ?_⟩
  · intro r hr
    rw [Option.map_eq_some_iff] at hr
    rcases hr with ⟨x, hx, rfl⟩
    rw [hTracks.refs_live]
    exact List.mem_map_of_mem (List.mem_of_find?_eq_some hx)
  · intro x hx
    rw [hTracks.calls] at hx
    rcases List.mem_map.mp hx with ⟨y, hy, rfl⟩
    constructor
    · intro hFound
      rw [Option.map_eq_some_iff] at hFound
      rcases hFound with ⟨z, hz, hRef⟩
      have hSame : z = y :=
        List.inj_on_of_nodup_map hTracks.holds.nodup
          (List.mem_of_find?_eq_some hz) hy hRef
      rw [hSame] at hz
      have hOurs := List.find?_some hz
      exact (stopsAt_iff _ _ _).mp hOurs
    · intro hId
      have hOurs : ours y = true :=
        (stopsAt_iff _ _ _).mpr hId
      have hSome : (xs.find? ours).isSome = true :=
        List.find?_isSome.mpr ⟨y, hy, hOurs⟩
      rcases Option.isSome_iff_exists.mp hSome with ⟨z, hz⟩
      have hOursZ : ours z = true := List.find?_some hz
      have hIdZ :
          z.2.peerId s.node.config.peer =
            some (s.node.config.peer peer).id :=
        (stopsAt_iff _ _ _).mp hOursZ
      have hSame : z = y :=
        List.inj_on_of_nodup_map hDistinct
          (List.mem_of_find?_eq_some hz) hy
          (hIdZ.trans hId.symm)
      rw [hz, hSame]
      rfl

end

/-
  In every run from a process without uploads the list is
  well linked and holds the entries that were added and not
  deleted since; nothing follows a freed node. Where only
  `process_get` adds, no peer has two uploads.
-/
theorem upload_list_of_run
    {env : Env}
    {s t : LinkedNode}
    (hEmpty : s.uploads = .empty)
    (hFault : s.fault = none)
    (hRun : Reaches (LinkedNode.step env) Allowed s t) :
    WellLinked t.uploads ∧ ListsLive t.uploads ∧
      t.fault ≠ some .freedSender ∧
      (Reaches (LinkedNode.step env)
          (fun s e => Allowed s e ∧ ¬ e.AddsDirectly) s t →
        OnePerPeer t) := by
  have hStart : ListKept s := by
    refine ⟨⟨[], ?_⟩, ?_⟩
    · rw [hEmpty]
      exact tracks_empty
    · rw [hFault]
      exact nofun
  have hKept : ListKept t :=
    hRun.invariant hStart fun _ _ h hAllow =>
      (step_listKept h hAllow).1
  rcases hKept.tracks with ⟨xs, hTracks⟩
  refine ⟨hTracks.wellLinked, hTracks.listsLive,
    hKept.fault, fun hServed => ?_⟩
  have hNone : Exclusive s := by
    constructor
    · intro x hx
      rw [hEmpty] at hx
      cases hx
    · rw [hEmpty]
      exact List.nodup_nil
  have hBoth : ListKept t ∧ Exclusive t :=
    hServed.invariant (I := fun s => ListKept s ∧ Exclusive s)
      ⟨hStart, hNone⟩ fun _ _ h hAllow =>
        have hStep := step_listKept h.1 hAllow.1
        ⟨hStep.1, hStep.2.exclusive hAllow.2 h.2⟩
  exact hBoth.2.found hTracks

/- A process without uploads. -/
def unlinkedNode : LinkedNode where
  node := onePeerNode
  uploads := .empty
  fault := none

/- Three entries without packets, the middle one deleted. -/
def threeCalls : List ListEvent :=
  [.add 0 (Vector.replicate 20 1) none 0 (some 0),
    .add 1 (Vector.replicate 20 2) none 0 (some 0),
    .add 2 (Vector.replicate 20 3) none 0 none, .del 1]

theorem upload_list_of_run_three :
    refs (live (foldSteps (LinkedNode.step stillEnv)
        unlinkedNode threeCalls).uploads.calls) = [2, 0] ∧
      WellLinked (foldSteps (LinkedNode.step stillEnv)
        unlinkedNode threeCalls).uploads := by
  have hRun :
      Reaches (LinkedNode.step stillEnv) Allowed unlinkedNode
        (foldSteps (LinkedNode.step stillEnv) unlinkedNode
          threeCalls) :=
    reaches_foldSteps
      ⟨rfl, rfl, rfl, .tail _ (.head _), trivial⟩
  exact ⟨by decide,
    (upload_list_of_run rfl rfl hRun).1⟩

end PeerNet
