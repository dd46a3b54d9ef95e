import PeerNet.Model.System
import PeerNet.Receiver.Specs
import PeerNet.Receiver.Pairing

/-
  Steps of one process.

  `Kept` collects what an invariant of processes has to be
  kept by: the moves of the receiving side, the answer to
  DATA and the sending side's own changes. `Kept.step` then
  says that every event keeps it, where what DATA does is
  left to the invariant.

  Main declarations:
    * `Served`
    * `Kept`
    * `Kept.step`
-/

------------------------------------------------------------
-- The Sending Side Leaves the Receiving Side Alone
------------------------------------------------------------

namespace PeerNet

open Prog

/- Only uploads, the queue and the clock differ. -/
def Served
    (n m : Node) : Prop :=
  ∃ upload queue reads,
    m =
      { n with
        config := { n.config with upload := upload }
        queue := queue
        reads := reads }

theorem Served.refl
    (n : Node) :
    Served n n :=
  ⟨n.config.upload, n.queue, n.reads, rfl⟩

theorem Served.trans
    {n m k : Node}
    (h : Served n m)
    (h' : Served m k) :
    Served n k := by
  rcases h with ⟨_, _, _, rfl⟩
  rcases h' with ⟨upload, queue, reads, rfl⟩
  exact ⟨upload, queue, reads, rfl⟩

/- The call serves, and stops at no pointer. -/
def Serves
    {α : Type}
    (n : Node)
    (x : Prog α) : Prop :=
  wp x (fun _ m => Served n m)
    (fun f m => Served n m ∧ f.isPointer = false) n

theorem processGet_serves
    (env : Env)
    (src : Addr)
    (packet : Packet)
    (n : Node) :
    Serves n (processGet env src packet) := by
  unfold Serves processGet
  rw [wp_bind, wp_get]
  dsimp only
  cases peerWithAddr src n.config with
  | none => exact .refl n
  | some peer =>
      dsimp only
      rw [wp_ite, wp_ite, wp_ite]
      refine ⟨fun _ => .refl n, fun _ => ?_⟩
      refine ⟨fun _ => .refl n, fun _ => ?_⟩
      refine ⟨fun _ => ⟨.refl n, rfl⟩, fun _ => ?_⟩
      unfold sendData
      rw [wp_bind, wp_get, wp_bind, wp_lift]
      refine ⟨fun chunk _ => ?_, fun f hFault => ?_⟩
      rotate_left
      · exact ⟨.refl n, (local_dataChunk _ _ _ _).plain _
          hFault⟩
      cases chunk with
      | none => exact .refl n
      | some chunk =>
          rcases chunk with ⟨filechunk, readBytes⟩
          dsimp only
          rw [wp_ite]
          refine ⟨fun _ => .refl n, fun _ => ?_⟩
          cases peerWithAddr src n.config with
          | none => exact ⟨.refl n, rfl⟩
          | some p =>
              dsimp only
              rw [wp_bind, wp_modify]
              exact ⟨_, n.queue, n.reads, rfl⟩

theorem processAck_serves
    (src : Addr)
    (packet : Packet)
    (n : Node) :
    Serves n (processAck src packet) := by
  unfold Serves processAck
  rw [wp_bind, wp_get]
  dsimp only
  cases peerWithAddr src n.config with
  | none => exact .refl n
  | some peer =>
      dsimp only
      cases findSenderList n.config peer with
      | none => exact .refl n
      | some _ =>
          dsimp only
          rw [wp_bind, wp_modify]
          exact ⟨_, n.queue, n.reads, rfl⟩

theorem queueVisits_serves
    (c : BtConfig)
    (visits : List (BtSender × CcVisit))
    (n : Node) :
    Serves n (visits.forM (queueVisit c)) := by
  apply wp_forM (I := Served n)
  · intro sv _ m hm
    apply wp_forM (I := Served n)
    · intro packet _ k hk
      apply wp_packetNew
      · intro payload
        exact hk.trans
          ⟨k.config.upload, _, k.reads, rfl⟩
      · exact ⟨hk, rfl⟩
      · exact ⟨hk, rfl⟩
    · exact hm
  · exact .refl n

/- `peer_cc` stops at no pointer. -/
theorem ccVisit_fault
    {env : Env}
    {fuel reads : Nat}
    {s : BtSender}
    {f : Fault}
    (hEnd : (ccVisit env fuel reads s).ending = .fault f) :
    f.isPointer = false := by
  induction fuel generalizing reads s with
  | zero =>
      simp only [ccVisit, CcEnd.fault.injEq] at hEnd
      rw [← hEnd]
      rfl
  | succ fuel ih =>
      unfold ccVisit at hEnd
      split at hEnd
      · simp at hEnd
      · dsimp only at hEnd
        split at hEnd
        · simp at hEnd
        · split at hEnd
          · split at hEnd
            · exact ih hEnd
            · rw [← CcEnd.fault.inj hEnd]
              rfl
          · split at hEnd
            · split at hEnd
              · simp at hEnd
              · rw [← CcEnd.fault.inj hEnd]
                rfl
            · simp at hEnd

theorem ccPass_fault
    {env : Env}
    {reads : Nat}
    {uploads : List BtSender}
    {sv : BtSender × CcVisit}
    {f : Fault}
    (hVisit : sv ∈ ccPass env reads uploads)
    (hEnd : sv.2.ending = .fault f) :
    f.isPointer = false := by
  induction uploads generalizing reads with
  | nil => simp [ccPass] at hVisit
  | cons s uploads ih =>
      unfold ccPass at hVisit
      dsimp only at hVisit
      split at hVisit
      · rw [List.mem_singleton] at hVisit
        subst hVisit
        exact ccVisit_fault hEnd
      · rcases List.mem_cons.mp hVisit with rfl | hRest
        · exact ccVisit_fault hEnd
        · exact ih hRest

theorem peerCc_serves
    (env : Env)
    (n : Node) :
    Serves n (peerCc env) := by
  unfold Serves peerCc
  rw [wp_bind, wp_get]
  dsimp only
  rw [wp_bind]
  apply wp_mono (queueVisits_serves n.config _ n)
  · intro _ m hm
    rw [wp_bind, wp_modify]
    have hDone :
        Served n
          { m with
            config :=
              { m.config with
                upload :=
                  (ccPass env n.reads
                    n.config.upload).filterMap
                    (·.2.ending.remaining) }
            reads :=
              ((ccPass env n.reads
                n.config.upload).getLast?.map
                (·.2.reads)).getD m.reads } :=
      hm.trans ⟨_, m.queue, _, rfl⟩
    split
    · next sv f hLast =>
        refine ⟨hDone, ?_⟩
        exact ccPass_fault (List.mem_of_getLast? hLast) rfl
    · exact hDone
  · exact fun _ _ h => h

end PeerNet

------------------------------------------------------------
-- Kept by Every Event
------------------------------------------------------------

namespace PeerNet

open Prog

/- The process stops at a fault. -/
@[simps]
def Node.halt
    (f : Fault)
    (n : Node) : Node :=
  { n with fault := some f }

/-
  What keeps an invariant of processes, besides DATA. It
  implies the pairing, so that no pointer dangles.
-/
structure Kept
    (env : Env)
    (call : Call)
    (I : Node → Prop) : Prop where
  paired : ∀ n, I n → Paired n.config
  move : ∀ n m, I n → Move env call n m → I m
  push : ∀ n d, I n → I (n.push d)
  served : ∀ n m, I n → Served n m → I m
  halt : ∀ n f, f.isPointer = false → I n → I (n.halt f)

section

variable {env : Env} {call : Call}
variable {I : Node → Prop} {n : Node}

theorem Kept.moves
    (hKept : Kept env call I)
    {m : Node}
    (hI : I n)
    (hMoves : Moves env call n m) :
    I m := by
  induction hMoves with
  | refl => exact hI
  | tail _ hMove ih => exact hKept.move _ _ ih hMove

theorem Kept.getMoves
    (hKept : Kept env call I)
    {m : Node}
    (hI : I n)
    (hMoves : GetMoves n m) :
    I m :=
  hKept.moves hI (.ofGet env call hMoves)

/- What both ends of a call meet, at a process that runs. -/
theorem Node.exec_of_wp
    {α : Type}
    {x : Prog α}
    {P : Node → Prop}
    (h : wp x (fun _ m => P m) (fun f m => P (m.halt f)) n)
    (hStill : n.fault.isSome = true → P n) :
    P (n.exec x) := by
  unfold Node.exec
  split
  · next hFault => exact hStill hFault
  · unfold wp at h
    split
    · next hRun =>
        rw [hRun] at h
        exact h
    · next hRun =>
        rw [hRun] at h
        exact h

/- A call that makes moves from where `I` holds ends in `I`. -/
theorem Kept.exec_from
    (hKept : Kept env call I)
    {α : Type}
    {x : Prog α}
    (hRun : n.fault = none)
    (hFrom :
      wp x (fun _ m => ∃ k, I k ∧ Moves env call k m)
        (fun f m => ∃ k, I k ∧ Faulted env call k f m) n) :
    I (n.exec x) := by
  apply Node.exec_of_wp
  · apply wp_mono hFrom
    · rintro _ m ⟨k, hI, hMoves⟩
      exact hKept.moves hI hMoves
    · rintro f m ⟨k, hI, ⟨m', hMoves, hPointer, hOther⟩, _⟩
      have hI' := hKept.moves hI hMoves
      cases hIs : f.isPointer with
      | true =>
          have hNot := (hKept.paired m' hI').not_dangling f
          exact absurd (hPointer hIs) hNot
      | false =>
          rw [hOther hIs] at hI'
          exact hKept.halt m f hIs hI'
  · intro hFault
    simp [hRun] at hFault

/- A call that makes moves keeps the invariant. -/
theorem Kept.exec
    (hKept : Kept env call I)
    {α : Type}
    {x : Prog α}
    {P : α → Node → Prop}
    (hLeads : Leads env call n x P)
    (hI : I n) :
    I (n.exec x) := by
  cases hFault : n.fault with
  | some f =>
      unfold Node.exec
      simpa [hFault] using hI
  | none =>
      apply hKept.exec_from hFault
      apply wp_mono hLeads
      · exact fun _ m h => ⟨n, hI, h.1⟩
      · exact fun _ m h => ⟨n, hI, h⟩

/- A call that serves keeps the invariant. -/
theorem Kept.serve
    (hKept : Kept env call I)
    {α : Type}
    {x : Prog α}
    (hServes : Serves n x)
    (hI : I n) :
    I (n.exec x) := by
  apply Node.exec_of_wp _ fun _ => hI
  apply wp_mono hServes
  · exact fun _ m hm => hKept.served n m hI hm
  · exact fun f m hm =>
      hKept.halt m f hm.2 (hKept.served n m hI hm.1)

/- `discard` does not change the effect of a call. -/
theorem Node.exec_discard
    {α : Type}
    (x : Prog α) :
    n.exec (discard x) = n.exec x := by
  unfold Node.exec
  by_cases hFault : n.fault.isSome
  · simp [hFault]
  rw [if_neg hFault, if_neg hFault]
  cases hRun : x n with
  | ok a m =>
      have hMap : discard x n = .ok () m := by
        change EStateM.map _ x n = _
        unfold EStateM.map
        rw [hRun]
      rw [hMap]
  | error f m =>
      have hMap : discard x n = .error f m := by
        change EStateM.map _ x n = _
        unfold EStateM.map
        rw [hRun]
      rw [hMap]

/- A call that ends in one state, and at no fault. -/
theorem Node.exec_discard_of_wp
    {α : Type}
    {x : Prog α}
    {m : Node}
    (hRunning : n.fault = none)
    (hEnds :
      wp x (fun _ k => k = m) (fun _ _ => False) n) :
    n.exec (discard x) = m := by
  rw [Node.exec_discard]
  apply Node.exec_of_wp (P := fun k => k = m)
  · apply wp_mono hEnds
    · exact fun _ _ hEnd => hEnd
    · exact fun _ _ hNever => hNever.elim
  · intro hFault
    simp [hRunning] at hFault

/-
  `process_data` took one of its ways, and ended or stopped
  where it was. It ends without an answer only where it has
  finished no chunk.
-/
def DataRun
    (env : Env)
    (src : Addr)
    (packet : Packet)
    (n m : Node) : Prop :=
  ∃ ack counted k k',
    DataStep env src packet n ack counted k ∧
      GetPart counted k k' ∧
        ((m = k'.answer src ack ∧
            (ack = none → k.trace = n.trace)) ∨
          ∃ f, f.isPointer = false ∧
            (ack = none ∨ counted = true) ∧
            m = k'.halt f)

/- DATA at a process that runs. -/
theorem step_data_cases
    (env : Env)
    (src : Addr)
    (packet : Packet)
    (hRun : n.fault = none) :
    DataRun env src packet n
        (n.step env (.data src packet)) ∨
      ∃ f m, DataLost env src packet n m ∧
        n.step env (.data src packet) = m.halt f := by
  have hSpec := processData_spec env src packet n
  unfold Node.step handle
  rw [Node.exec_discard]
  unfold Node.exec
  simp only [hRun, Option.isSome_none, Bool.false_eq_true,
    if_false]
  unfold wp at hSpec
  cases hResult : processData env src packet n with
  | ok a m =>
      rw [hResult] at hSpec
      rcases hSpec with
        ⟨ack, counted, k, k', hStep, hPart, hEnd, hQuiet⟩
      exact .inl ⟨ack, counted, k, k', hStep, hPart,
        .inl ⟨hEnd, hQuiet⟩⟩
  | error f m =>
      rw [hResult] at hSpec
      rcases hSpec with ⟨hPointer, hOther⟩
      cases hIs : f.isPointer with
      | true => exact .inr ⟨f, m, hPointer hIs, rfl⟩
      | false =>
          rcases hOther hIs with
            ⟨ack, counted, k, hStep, hPart, hWhich⟩
          exact .inl ⟨ack, counted, k, m, hStep, hPart,
            .inr ⟨f, hIs, hWhich, rfl⟩⟩

/- What is lost has no chunk, or its chunk no peer. -/
theorem DataLost.loose
    {src : Addr}
    {packet : Packet}
    {m : Node}
    (h : DataLost env src packet n m) :
    Loose n.config src := by
  rcases h with
    ⟨p, r, hFetching, hDead, _⟩ |
    ⟨p, r, chunk, nodes, hTaking, hFree, _⟩
  · refine ⟨p, r, hFetching, ?_⟩
    intro chunk hLive
    rw [hLive] at hDead
    cases hDead
  · refine ⟨p, r, hTaking.toFetching, ?_⟩
    intro chunk' hLive
    have hSame : chunk = chunk' :=
      Option.some.inj (hTaking.live.symm.trans hLive)
    rw [← hSame]
    exact hFree

/- DATA, where the fetch has its chunk and its peer. -/
theorem step_data
    (env : Env)
    {src : Addr}
    (packet : Packet)
    (hRun : n.fault = none)
    (hTight : ¬ Loose n.config src) :
    DataRun env src packet n
      (n.step env (.data src packet)) := by
  rcases step_data_cases env src packet hRun with
    hData | ⟨f, m, hLost, _⟩
  · exact hData
  · exact absurd hLost.loose hTight

/- A process at a fault does nothing more. -/
theorem step_of_fault
    (env : Env)
    (e : NodeEvent)
    {f : Fault}
    (hFault : n.fault = some f) :
    n.step env e = n := by
  unfold Node.step Node.exec
  simp [hFault]

/- DATA keeps the invariant, if what it stores does. -/
theorem Kept.step_data
    (hKept : Kept env call I)
    {src : Addr}
    {packet : Packet}
    (hData :
      ∀ ack counted m,
        DataStep env src packet n ack counted m → I m)
    (hI : I n) :
    I (n.step env (.data src packet)) := by
  cases hFault : n.fault with
  | some f =>
      rw [step_of_fault env _ hFault]
      exact hI
  | none =>
      rcases PeerNet.step_data env packet hFault
          ((hKept.paired n hI).not_loose src) with
        ⟨ack, counted, k, k', hStep, hPart, hEnd⟩
      have hI' :=
        hKept.getMoves (hData ack counted k hStep) hPart.1
      rcases hEnd with ⟨hEnd, _⟩ | ⟨f, hOther, _, hEnd⟩
      · rw [hEnd]
        cases ack with
        | none => exact hI'
        | some ackNum => exact hKept.push k' _ hI'
      · rw [hEnd]
        exact hKept.halt k' f hOther hI'

/-
  The call an event makes moves of. The others make none but
  those of `finish_get`, which belong to any call.
-/
def callOf : NodeEvent → Call
| .userGet _ _ => .userGet
| .timeoutCheck => .timeoutCheck
| .getAllTheThingz => .getAllTheThingz
| _ => .ihave

/- Every event keeps the invariant. -/
theorem Kept.step
    {e : NodeEvent}
    (hKept : Kept env (callOf e) I)
    (hUser :
      ∀ chunkfile outputfile,
        e = .userGet chunkfile outputfile →
          n.config.download = [])
    (hData :
      ∀ src packet, e = .data src packet →
        ∀ ack counted m,
          DataStep env src packet n ack counted m → I m)
    (hI : I n) :
    I (n.step env e) := by
  cases e with
  | userGet chunkfile outputfile =>
      have hNone := hUser chunkfile outputfile rfl
      exact hKept.exec
        (processUserGet_leads env chunkfile outputfile
          hNone) hI
  | timeoutCheck =>
      exact hKept.exec (timeoutCheck_leads env n) hI
  | getAllTheThingz =>
      exact hKept.exec (getAllTheThingz_leads env n) hI
  | peerCc => exact hKept.serve (peerCc_serves env n) hI
  | ihave src packet =>
      unfold Node.step handle
      rw [Node.exec_discard]
      exact hKept.exec
        (processIhave_leads env src packet n) hI
  | get src packet =>
      unfold Node.step handle
      rw [Node.exec_discard]
      exact hKept.serve
        (processGet_serves env src packet n) hI
  | data src packet =>
      exact hKept.step_data (hData src packet rfl) hI
  | ack src packet =>
      unfold Node.step handle
      rw [Node.exec_discard]
      exact hKept.serve (processAck_serves src packet n) hI

end

end PeerNet
