import PeerNet.Model.UploadList
import PeerNet.Sender.Visits
import Mathlib.Data.List.Find

/-
  The upload list keeps its shape.

  `Tracks u xs` says that the nodes on the heap are the list
  `xs` and that `xs` is what the calls of `add_sender_list`
  and `del_sender_list` left: the entries added and not
  deleted since, newest first, with their hash, packets and
  peer as they were added. Every operation keeps it, at every
  position of the list, and so does the cursor of `peer_cc`,
  which deletes while it walks.

  A list that tracks its calls is a list of the model without
  pointers: a search, an addition and a pass there are the
  pointer functions here.

  Key definitions include:
    * `Tracks`
    * `passed`
    * `Represents`

  Key results include:
    * `Tracks.addSenderList`
    * `Tracks.delSenderList`
    * `Tracks.findSenderList`
    * `ccLoop_spec`
    * `Represents.findSenderList`
    * `Represents.peerCc`
-/

------------------------------------------------------------
-- What the Calls Left
------------------------------------------------------------

namespace PeerNet

open DoublyLinked UploadHeap

/- The entry as it was when it was added. -/
def SenderEntry.added
    (e : SenderEntry) : SenderEntry :=
  .new e.hash e.packets e.numPackets e.peer

/- The heap holds `xs`, and `xs` is what the calls left. -/
structure Tracks
    (u : UploadHeap)
    (xs : List (SenderRef × SenderEntry)) : Prop where
  holds : u.chain.Holds xs
  calls : live u.calls = xs.map fun x => (x.1, x.2.added)

theorem live_length
    (calls : List SenderCall) :
    (live calls).length ≤ calls.length := by
  induction calls with
  | nil => exact le_rfl
  | cons call calls ih =>
      cases call with
      | add r e =>
          simp only [live, List.length_cons]
          exact Nat.succ_le_succ ih
      | del r =>
          simp only [live, List.length_cons]
          exact (List.length_filter_le _ _).trans
            (ih.trans (Nat.le_succ _))

theorem tracks_empty :
    Tracks .empty [] where
  holds :=
    ⟨rfl, trivial, List.nodup_nil,
      fun _ h => absurd rfl h⟩
  calls := rfl

section

variable {u : UploadHeap} {r : SenderRef}
variable {e : SenderEntry} {x : SenderRef × SenderEntry}
variable {xs ys : List (SenderRef × SenderEntry)}

theorem Tracks.length_le
    (h : Tracks u xs) :
    xs.length ≤ u.calls.length := by
  have hLive := live_length u.calls
  rw [h.calls, List.length_map] at hLive
  exact hLive

theorem Tracks.refs_live
    (h : Tracks u xs) :
    refs (live u.calls) = refs xs := by
  rw [h.calls, refs, refs, List.map_map]
  rfl

/- A new entry, at an address that holds no node. -/
theorem Tracks.addSenderList
    (h : Tracks u xs)
    (hFresh : u.chain.mem r = none)
    (hNew : e.added = e) :
    ∃ v, u.addSenderList r e = .ok v ∧
      Tracks v ((r, e) :: xs) ∧
      live v.calls = (r, e) :: live u.calls := by
  rcases h.holds.push hFresh e with ⟨chain, hLead, hHolds⟩
  refine ⟨⟨{ chain with head := some r },
    .add r e :: u.calls⟩, ?_, ⟨hHolds, ?_⟩, rfl⟩
  · rw [UploadHeap.addSenderList]
    simp only [hLead]
  · simp only [live, List.map_cons, h.calls, hNew]

/- A deletion, at any position of the list. -/
theorem Tracks.delSenderList
    (h : Tracks u (xs ++ x :: ys)) :
    if x.2.freeable then
      ∃ v, u.delSenderList (some x.1) = .ok v ∧
        Tracks v (xs ++ ys)
    else
      u.delSenderList (some x.1) =
        .error (.other .packetIndex) := by
  have hCell := h.holds.cell
  split
  · next hFree =>
      rcases h.holds.unlink with ⟨chain, hLead, hHolds⟩
      refine ⟨⟨chain.free x.1, .del x.1 :: u.calls⟩, ?_,
        hHolds, ?_⟩
      · rw [UploadHeap.delSenderList]
        simp only [hCell, hFree, hLead, if_true]
      · have hNodup := h.holds.nodup
        simp only [refs, List.map_append, List.map_cons,
          List.nodup_append', List.nodup_cons,
          List.disjoint_cons_right] at hNodup
        have hLeft : ∀ y ∈ xs, y.1 ≠ x.1 := fun y hy hEq =>
          hNodup.2.2.1 (hEq ▸ List.mem_map_of_mem hy)
        have hRight : ∀ y ∈ ys, y.1 ≠ x.1 := fun y hy hEq =>
          hNodup.2.1.1 (hEq ▸ List.mem_map_of_mem hy)
        simp only [live, h.calls, List.map_append,
          List.map_cons, List.filter_append,
          List.filter_cons, List.filter_map]
        rw [List.filter_eq_self.mpr, List.filter_eq_self.mpr]
        · simp
        · simpa using hRight
        · simpa using hLeft
  · next hFree =>
      rw [UploadHeap.delSenderList]
      simp only [hCell, hFree, Bool.false_eq_true, if_false]

/- Writing the counters of an entry. -/
theorem Tracks.update
    (h : Tracks u (xs ++ x :: ys))
    {f : SenderEntry → SenderEntry}
    (hAdded : (f x.2).added = x.2.added) :
    ∃ v, u.update x.1 f = .ok v ∧
      Tracks v (xs ++ (x.1, f x.2) :: ys) ∧
      v.calls = u.calls := by
  have hCell := h.holds.cell
  refine ⟨{ u with
    chain :=
      u.chain.put x.1
        ⟨f x.2, last none xs, first ys none⟩ }, ?_,
    ⟨h.holds.setItem (f x.2), ?_⟩, rfl⟩
  · rw [UploadHeap.update]
    simp only [hCell]
  · rw [h.calls]
    simp only [List.map_append, List.map_cons, hAdded]

/- `find_sender_list` searches the list. -/
theorem Tracks.findSenderList
    (h : Tracks u xs)
    (peerOf : PeerRef → BtPeer)
    (peer : PeerRef) :
    u.findSenderList peerOf peer =
      some ((xs.find? fun x =>
        stopsAt peerOf peer x.2).map Prod.fst) :=
  h.holds.seek _ h.length_le

end

end PeerNet

------------------------------------------------------------
-- A Pass over the Nodes
------------------------------------------------------------

namespace PeerNet

open DoublyLinked UploadHeap Prog

/- The node and the entry as it was added. -/
def entryKey
    (x : SenderRef × SenderEntry) :
    SenderRef × SenderEntry :=
  (x.1, x.2.added)

/- What a pass that meets no fault leaves of the entries. -/
def passed
    (env : Env) :
    Nat → List (SenderRef × SenderEntry) →
      List (SenderRef × SenderEntry)
| _, [] => []
| reads, x :: xs =>
    let v := ccVisit env ccFuel reads x.2.sender
    match v.ending with
    | .kept s => (x.1, x.2.write s) :: passed env v.reads xs
    | .fault _ => []
    | _ => passed env v.reads xs

theorem passed_sublist
    (env : Env)
    (reads : Nat)
    (xs : List (SenderRef × SenderEntry)) :
    ((passed env reads xs).map entryKey).Sublist
      (xs.map entryKey) := by
  induction xs generalizing reads with
  | nil => exact List.Sublist.refl _
  | cons x xs ih =>
      rw [passed]
      split
      · exact (ih _).cons_cons _
      · exact List.nil_sublist _
      · exact (ih _).cons _

/- A call on the uploads leaves the configuration alone. -/
structure SameRest
    (s t : LinkedNode) : Prop where
  config : t.node.config = s.node.config
  fault : t.fault = s.fault

theorem SameRest.trans
    {s t u : LinkedNode}
    (h : SameRest s t)
    (h' : SameRest t u) :
    SameRest s u where
  config := h'.config.trans h.config
  fault := h'.fault.trans h.fault

namespace LinkedNode

variable {α : Type} {Q : α → LinkedNode → Prop}
variable {E : UploadFault → LinkedNode → Prop}
variable {s : LinkedNode}

theorem wp_onUploads
    {Q : Unit → LinkedNode → Prop}
    (f : UploadHeap → Except UploadFault UploadHeap) :
    wp (onUploads f) Q E s ↔
      match f s.uploads with
      | .error fault => E fault s
      | .ok u => Q () { s with uploads := u } := by
  unfold onUploads
  rw [wp_bind, wp_get]
  cases f s.uploads with
  | error fault => exact wp_throw fault
  | ok u => exact wp_modify _

theorem wp_onNode
    (x : Prog α) :
    wp (onNode x) Q E s ↔
      wp x (fun a n => Q a { s with node := n })
        (fun fault n => E (.other fault) { s with node := n })
        s.node := by
  unfold onNode
  rw [wp_bind, wp_get]
  unfold wp
  cases x s.node with
  | ok a n => exact Iff.rfl
  | error fault n => exact Iff.rfl

/- Queueing the packets of a visit changes only the queue. -/
theorem queueVisit_linked
    (e : SenderEntry)
    (v : CcVisit)
    (s : LinkedNode) :
    wp (LinkedNode.queueVisit e v)
      (fun _ t => t.uploads = s.uploads ∧ SameRest s t)
      (fun fault t => (t.uploads = s.uploads ∧
        SameRest s t) ∧ fault ≠ .freedSender) s := by
  have hSame : s.uploads = s.uploads ∧ SameRest s s :=
    ⟨rfl, rfl, rfl⟩
  unfold LinkedNode.queueVisit
  rw [wp_bind, wp_get, wp_ite]
  refine ⟨fun _ => hSame, fun _ => ?_⟩
  split
  · exact ⟨hSame, by simp⟩
  · rw [wp_onNode]
    apply wp_mono (queueVisit_spec s.node.config _ s.node)
    · intro _ n hn
      rw [hn]
      exact ⟨rfl, rfl, rfl⟩
    · intro fault n hn
      rcases hn with ⟨_, new, hn, _⟩
      rw [hn]
      exact ⟨⟨rfl, rfl, rfl⟩, by simp⟩

/- Where a pass may stop: no entry is lost but by a deletion. -/
def StoppedAt
    (s : LinkedNode)
    (done rest : List (SenderRef × SenderEntry))
    (fault : UploadFault)
    (t : LinkedNode) : Prop :=
  (∃ left, Tracks t.uploads (done ++ left) ∧
    (left.map entryKey).Sublist (rest.map entryKey)) ∧
  SameRest s t ∧ fault ≠ .freedSender

theorem StoppedAt.of_kept
    {s t u : LinkedNode}
    {done rest : List (SenderRef × SenderEntry)}
    {x : SenderRef × SenderEntry}
    {kept : BtSender}
    {fault : UploadFault}
    (hSame : SameRest s t)
    (h :
      StoppedAt t (done ++ [(x.1, x.2.write kept)]) rest
        fault u) :
    StoppedAt s done (x :: rest) fault u := by
  rcases h with ⟨⟨left, hLeft, hSub⟩, hRest, hFault⟩
  rw [List.append_assoc] at hLeft
  exact ⟨⟨(x.1, x.2.write kept) :: left, hLeft,
    hSub.cons_cons (entryKey x)⟩, hSame.trans hRest, hFault⟩

theorem StoppedAt.of_deleted
    {s t u : LinkedNode}
    {done rest : List (SenderRef × SenderEntry)}
    {x : SenderRef × SenderEntry}
    {fault : UploadFault}
    (hSame : SameRest s t)
    (h : StoppedAt t done rest fault u) :
    StoppedAt s done (x :: rest) fault u := by
  rcases h with ⟨⟨left, hLeft, hSub⟩, hRest, hFault⟩
  exact ⟨⟨left, hLeft, hSub.cons (entryKey x)⟩,
    hSame.trans hRest, hFault⟩

/- The node under the cursor stays in the list. -/
theorem ccLoop_kept
    {env : Env}
    {fuel : Nat}
    {done rest : List (SenderRef × SenderEntry)}
    {x : SenderRef × SenderEntry}
    {kept : BtSender}
    {t : LinkedNode}
    {Q : Unit → LinkedNode → Prop}
    (h : Tracks t.uploads (done ++ x :: rest))
    (hNext :
      ∀ u,
        Tracks u.uploads
          (done ++ [(x.1, x.2.write kept)] ++ rest) →
        u.node = t.node → SameRest t u →
        wp (ccLoop env fuel (first rest none)) Q E u) :
    wp
      (do
        onUploads (UploadHeap.update x.1 (·.write kept))
        ccLoop env fuel (first rest none)) Q E t := by
  rcases h.update (f := (·.write kept)) rfl with
    ⟨u, hUpdate, hTracks, _⟩
  rw [wp_bind, wp_onUploads, hUpdate]
  refine hNext _ ?_ rfl ⟨rfl, rfl⟩
  rw [List.append_assoc]
  exact hTracks

/- The node under the cursor is taken out. -/
theorem ccLoop_deleted
    {env : Env}
    {fuel : Nat}
    {done rest : List (SenderRef × SenderEntry)}
    {x : SenderRef × SenderEntry}
    {t : LinkedNode}
    {Q : Unit → LinkedNode → Prop}
    (h : Tracks t.uploads (done ++ x :: rest))
    (hStuck : E (.other .packetIndex) t)
    (hNext :
      ∀ u, Tracks u.uploads (done ++ rest) →
        u.node = t.node → SameRest t u →
        wp (ccLoop env fuel (first rest none)) Q E u) :
    wp
      (do
        onUploads (UploadHeap.delSenderList (some x.1))
        ccLoop env fuel (first rest none)) Q E t := by
  have hDel := h.delSenderList
  rw [wp_bind, wp_onUploads]
  split at hDel
  · rcases hDel with ⟨u, hDel, hTracks⟩
    rw [hDel]
    exact hNext _ hTracks rfl ⟨rfl, rfl⟩
  · rw [hDel]
    exact hStuck

/-
  The loop from any cursor: the nodes before it are done, and
  the induction is on the rounds that are left. A pass ends
  with what `passed` says is left.
-/
theorem ccLoop_spec
    (env : Env)
    {fuel : Nat}
    (done : List (SenderRef × SenderEntry))
    {rest : List (SenderRef × SenderEntry)}
    {s : LinkedNode}
    (h : Tracks s.uploads (done ++ rest))
    (hFuel : rest.length ≤ fuel) :
    wp (ccLoop env fuel (first rest none))
      (fun _ t =>
        Tracks t.uploads
            (done ++ passed env s.node.reads rest) ∧
          SameRest s t)
      (StoppedAt s done rest) s := by
  induction fuel generalizing done rest s with
  | zero =>
      have hNil := List.eq_nil_of_length_eq_zero
        (Nat.le_zero.mp hFuel)
      subst hNil
      exact ⟨h, rfl, rfl⟩
  | succ fuel ih =>
      cases rest with
      | nil => exact ⟨h, rfl, rfl⟩
      | cons x rest =>
          have hCell := h.holds.cell
          have hShort := Nat.le_of_succ_le_succ hFuel
          have hHere (t : LinkedNode)
              (hUploads : t.uploads = s.uploads)
              (hSame : SameRest s t)
              (fault : UploadFault)
              (hFault : fault ≠ .freedSender) :
              StoppedAt s done (x :: rest) fault t :=
            ⟨⟨x :: rest, hUploads ▸ h,
              List.Sublist.refl _⟩, hSame, hFault⟩
          rw [first, ccLoop, wp_bind, wp_get]
          simp only [hCell]
          rw [wp_bind]
          generalize hv :
            ccVisit env ccFuel s.node.reads x.2.sender = v
          apply wp_mono (queueVisit_linked x.2 v s)
          · intro _ t ht
            rcases ht with ⟨hUploads, hSame⟩
            rw [wp_bind, wp_onNode, wp_modify]
            generalize hTurn :
              ({ t with node := t.node.readTo v.reads } :
                LinkedNode) = t'
            have hReads : t'.node.reads = v.reads := by
              rw [← hTurn]
              rfl
            have hUploads' : t'.uploads = s.uploads := by
              rw [← hTurn]
              exact hUploads
            have hSame' : SameRest s t' := by
              rw [← hTurn]
              exact ⟨hSame.config, hSame.fault⟩
            have hTracks :
                Tracks t'.uploads (done ++ x :: rest) :=
              hUploads' ▸ h
            split
            · next fault hEnd =>
                exact hHere t' hUploads' hSame'
                  (.other fault) (by simp)
            · next kept hEnd =>
                refine ccLoop_kept hTracks ?_
                intro u hKept hNode hRest
                apply wp_mono (ih _ hKept hShort)
                · intro _ w hw
                  refine ⟨?_, hSame'.trans (hRest.trans hw.2)⟩
                  have hLeft := hw.1
                  rw [hNode, hReads, List.append_assoc] at hLeft
                  rw [passed, hv]
                  simp only [hEnd]
                  exact hLeft
                · exact fun _ _ hw =>
                    hw.of_kept (hSame'.trans hRest)
            · next hNotFault hNotKept =>
                have hPassed :
                    passed env s.node.reads (x :: rest) =
                      passed env v.reads rest := by
                  rw [passed, hv]
                  split
                  · next kept hEnd =>
                      exact absurd hEnd (hNotKept kept)
                  · next fault hEnd =>
                      exact absurd hEnd (hNotFault fault)
                  · rfl
                refine ccLoop_deleted hTracks
                  (hHere t' hUploads' hSame' _ (by simp)) ?_
                intro u hDeleted hNode hRest
                apply wp_mono (ih _ hDeleted hShort)
                · intro _ w hw
                  refine ⟨?_, hSame'.trans (hRest.trans hw.2)⟩
                  have hLeft := hw.1
                  rw [hNode, hReads] at hLeft
                  rw [hPassed]
                  exact hLeft
                · exact fun _ _ hw =>
                    hw.of_deleted (hSame'.trans hRest)
          · intro fault t ht
            exact hHere t ht.1.1 ht.1.2 fault ht.2

end LinkedNode

end PeerNet

------------------------------------------------------------
-- The List without Pointers
------------------------------------------------------------

namespace PeerNet

open DoublyLinked UploadHeap Prog LinkedNode

/- The heap is the upload list of the model without pointers. -/
def Represents
    (u : UploadHeap)
    (uploads : List BtSender) : Prop :=
  ∃ xs, Tracks u xs ∧ (∀ x ∈ xs, x.2.peer ≠ none) ∧
    uploads = xs.map fun x => x.2.sender

section

variable {env : Env} {u : UploadHeap}
variable {uploads : List BtSender}
variable {xs : List (SenderRef × SenderEntry)}

/- An entry with the counters of `s` is `s`. -/
theorem sender_write
    {e : SenderEntry}
    {s : BtSender}
    (hHash : s.hash = e.sender.hash)
    (hPackets : s.packets = e.sender.packets)
    (hCount : s.numPackets = e.sender.numPackets)
    (hPeer : s.peer = e.sender.peer) :
    (e.write s).sender = s := by
  cases s
  simp only [SenderEntry.sender] at hHash hPackets hCount hPeer
  simp only [SenderEntry.sender, SenderEntry.write, hHash,
    hPackets, hCount, hPeer]

/- A pass leaves the same uploads on the heap and in the list. -/
theorem passed_eq
    (reads : Nat)
    (xs : List (SenderRef × SenderEntry)) :
    (passed env reads xs).map (fun x => x.2.sender) =
      leftUploads
        (ccPass env reads (xs.map fun x => x.2.sender)) := by
  induction xs generalizing reads with
  | nil => rfl
  | cons x xs ih =>
      have hVisit :=
        visit_ccVisit env ccFuel reads x.2.sender
      rw [passed, List.map_cons, ccPass]
      generalize ccVisit env ccFuel reads x.2.sender = v
        at hVisit
      cases hEnd : v.ending with
      | kept s =>
          have hSame := (hVisit.kept hEnd).1
          have hWrite : (x.2.write s).sender = s :=
            sender_write hSame.hash hSame.packets
              hSame.numPackets hSame.peer
          simp only [leftUploads, hEnd, List.filterMap_cons,
            CcEnd.remaining, List.map_cons, hWrite]
          rw [ih]
          rfl
      | finished =>
          simp only [leftUploads, hEnd, List.filterMap_cons,
            CcEnd.remaining]
          rw [ih]
          rfl
      | dead =>
          simp only [leftUploads, hEnd, List.filterMap_cons,
            CcEnd.remaining]
          rw [ih]
          rfl
      | fault f =>
          simp only [leftUploads, hEnd, List.filterMap_cons,
            CcEnd.remaining, List.filterMap_nil, List.map_nil]

/- `find_sender_list` on the heap and in the list. -/
theorem Represents.findSenderList
    {c : BtConfig}
    (h : Represents u c.upload)
    (peer : PeerRef) :
    ∃ found, u.findSenderList c.peer peer = some found ∧
      found.bind (fun r =>
        (u.chain.mem r).map fun node => node.item.sender) =
        PeerNet.findSenderList c peer := by
  rcases h with ⟨xs, hTracks, hPeers, hUploads⟩
  refine ⟨_, hTracks.findSenderList c.peer peer, ?_⟩
  have hStops : ∀ x ∈ xs,
      stopsAt c.peer peer x.2 = c.uploadsTo peer x.2.sender := by
    intro x hx
    rcases Option.ne_none_iff_exists'.mp (hPeers x hx) with
      ⟨p, hp⟩
    simp only [stopsAt, BtConfig.uploadsTo,
      SenderEntry.sender, hp, Option.getD_some]
  rw [PeerNet.findSenderList, hUploads, List.find?_map]
  have hFind :
      xs.find? (fun x => stopsAt c.peer peer x.2) =
        xs.find? (c.uploadsTo peer ∘ fun x => x.2.sender) :=
    List.find?_congr hStops
  rw [← hFind]
  cases hFound : xs.find? fun x => stopsAt c.peer peer x.2 with
  | none => rfl
  | some x =>
      rcases List.append_of_mem
        (List.mem_of_find?_eq_some hFound) with
        ⟨zs, ys, rfl⟩
      simp only [Option.map_some, Option.bind_some,
        hTracks.holds.cell]

/- `add_sender_list` on the heap and in the list. -/
theorem Represents.addSenderList
    {c : BtConfig}
    {r : SenderRef}
    (h : Represents u c.upload)
    (hFresh : u.chain.mem r = none)
    (hash : Hash)
    (packets : Option (List (Option Packet)))
    (numPackets : Int)
    (peer : PeerRef) :
    ∃ v,
      u.addSenderList r
          (.new hash packets numPackets (some peer)) = .ok v ∧
        Represents v
          (c.addSenderList
            (newSender hash packets numPackets peer)).upload := by
  rcases h with ⟨xs, hTracks, hPeers, hUploads⟩
  rcases hTracks.addSenderList
      (e := .new hash packets numPackets (some peer))
      hFresh rfl with ⟨v, hAdd, hNew, _⟩
  refine ⟨v, hAdd, _, hNew, ?_, ?_⟩
  · intro x hx
    rcases List.mem_cons.mp hx with rfl | hx
    · exact Option.some_ne_none _
    · exact hPeers x hx
  · rw [BtConfig.addSenderList, List.map_cons, hUploads]
    rfl

/- `peer_cc` on the heap and in the list. -/
theorem Represents.peerCc
    {s : LinkedNode}
    (h : Represents s.uploads uploads) :
    wp (LinkedNode.peerCc env)
      (fun _ t =>
        Represents t.uploads
          (leftUploads (ccPass env s.node.reads uploads)))
      (fun _ _ => True) s := by
  rcases h with ⟨xs, hTracks, hPeers, rfl⟩
  unfold LinkedNode.peerCc
  rw [wp_bind, wp_get]
  dsimp only
  rw [hTracks.holds.head]
  apply wp_mono (ccLoop_spec env [] hTracks
    hTracks.length_le)
  · intro _ t ht
    refine ⟨_, ht.1, ?_, (passed_eq _ xs).symm⟩
    intro x hx
    have hKey := (passed_sublist env s.node.reads xs).subset
      (List.mem_map_of_mem hx)
    rcases List.mem_map.mp hKey with ⟨y, hy, hEq⟩
    have hSame : y.2.peer = x.2.peer :=
      congrArg (fun k => k.2.peer) hEq
    rw [← hSame]
    exact hPeers y hy
  · exact fun _ _ _ => trivial

end

end PeerNet
