import PeerNet.Receiver.Steps

/-
  Properties that the receiving side keeps whatever state it
  is in.

  `Kept` is for invariants that exclude the dangling
  pointers. `Closed` assumes nothing about pointers or about
  when a user GET comes, so what it says holds of every
  call, also of one that stops at a pointer to nothing.

  Main declarations:
    * `Closed`
    * `Closed.dataRun`
    * `Closed.step`
    * `step_serves`
-/

------------------------------------------------------------
-- Closed Properties
------------------------------------------------------------

namespace PeerNet

open Prog

/- What the moves of a call, finished or not, keep. -/
structure Closed
    (env : Env)
    (call : Call)
    (I : Node → Prop) : Prop where
  move : ∀ n m, I n → Move env call n m → I m
  load : ∀ n chunkfile outputfile items,
    call = .userGet →
      (∀ item ∈ items, item.Looked env n) →
        I n →
          I (n.onConfig
            (BtConfig.load chunkfile outputfile items))
  raise : ∀ n, I n → I (n.onConfig BtConfig.raiseMaxConn)
  halt : ∀ n f, I n → I (n.halt f)

/- The events of the receiving side. -/
def NodeEvent.receives :
    NodeEvent → Prop
| .userGet _ _ => True
| .timeoutCheck => True
| .getAllTheThingz => True
| .ihave _ _ => True
| .data _ _ => True
| _ => False

section

variable {env : Env} {call : Call} {I : Node → Prop}
variable {n m : Node}

theorem Closed.moves
    (h : Closed env call I)
    (hI : I n)
    (hMoves : Moves env call n m) :
    I m := by
  induction hMoves with
  | refl => exact hI
  | tail _ hMove ih => exact h.move _ _ ih hMove

theorem Closed.getMoves
    (h : Closed env call I)
    (hI : I n)
    (hMoves : GetMoves n m) :
    I m :=
  h.moves hI (.ofGet env call hMoves)

theorem Closed.stopped
    (h : Closed env call I)
    (hI : I n)
    (hStopped : Stopped env call n m) :
    I m := by
  rcases hStopped with ⟨k, hMoves, rfl | rfl⟩
  · exact h.moves hI hMoves
  · exact h.raise k (h.moves hI hMoves)

/- A call that makes moves from where `I` holds. -/
theorem Closed.exec_from
    (h : Closed env call I)
    {α : Type}
    {x : Prog α}
    (hI : I n)
    (hFrom :
      wp x (fun _ m => ∃ k, I k ∧ Moves env call k m)
        (fun f m => ∃ k, I k ∧ Faulted env call k f m) n) :
    I (n.exec x) := by
  apply Node.exec_of_wp _ fun _ => hI
  apply wp_mono hFrom
  · rintro _ m ⟨k, hk, hMoves⟩
    exact h.moves hk hMoves
  · rintro f m ⟨k, hk, hFaulted⟩
    exact h.halt _ _ (h.stopped hk hFaulted.stopped)

/- A call keeps the property to both of its ends. -/
theorem Closed.wp
    (h : Closed env call I)
    {α : Type}
    {x : Prog α}
    {P : α → Node → Prop}
    (hLeads : Leads env call n x P)
    (hI : I n) :
    Prog.wp x (fun _ m => I m) (fun f m => I (m.halt f)) n := by
  apply wp_mono hLeads
  · exact fun _ m hm => h.moves hI hm.1
  · exact fun f m hm => h.halt m f (h.stopped hI hm.stopped)

theorem Closed.exec
    (h : Closed env call I)
    {α : Type}
    {x : Prog α}
    {P : α → Node → Prop}
    (hLeads : Leads env call n x P)
    (hI : I n) :
    I (n.exec x) :=
  Node.exec_of_wp (h.wp hLeads hI) fun _ => hI

/- A user GET, at any moment. -/
theorem Closed.userGet
    (h : Closed env .userGet I)
    (chunkfile outputfile : Path)
    (hI : I n) :
    I (n.step env (.userGet chunkfile outputfile)) := by
  have hLoaded :
      ∀ k, Node.Loaded env chunkfile outputfile n k →
        I k := by
    rintro k ⟨items, hLooked, rfl⟩
    exact h.load n chunkfile outputfile items rfl hLooked hI
  unfold Node.step handle
  apply h.exec_from hI
  cases hFile : n.files.content chunkfile with
  | none =>
      unfold processUserGet
      rw [wp_bind, wp_get, hFile]
      exact ⟨n, hI, .refl⟩
  | some text =>
      apply wp_mono
        (processUserGet_loads env outputfile hFile)
      · rintro _ m ⟨k, hk, hMoves⟩
        exact ⟨k, hLoaded k hk, hMoves⟩
      · rintro f m ⟨k, hk, hFaulted⟩
        exact ⟨k, hLoaded k hk, hFaulted⟩

/- DATA that runs through, if storing and the ACK are fine. -/
theorem Closed.dataRun
    (h : Closed env call I)
    {src : Addr}
    {packet : Packet}
    (hAnswer :
      ∀ k ackNum, I k →
        I (k.push ⟨ackPacket ackNum, src⟩))
    (hData :
      ∀ ack counted k,
        DataStep env src packet n ack counted k → I k)
    (hRun : DataRun env src packet n m) :
    I m := by
  rcases hRun with ⟨ack, counted, k, k', hStep, hPart, hEnd⟩
  have hLast : I k' :=
    h.getMoves (hData ack counted k hStep) hPart.1
  rcases hEnd with ⟨hEnd, _⟩ | ⟨f, _, _, hEnd⟩
  · rw [hEnd]
    cases ack with
    | none => exact hLast
    | some ackNum => exact hAnswer k' ackNum hLast
  · rw [hEnd]
    exact h.halt k' f hLast

/- An event of the receiving side, DATA apart. -/
theorem Closed.step
    {e : NodeEvent}
    (h : Closed env (callOf e) I)
    (hReceives : e.receives)
    (hData :
      ∀ src packet, e = .data src packet →
        I (n.step env e))
    (hI : I n) :
    I (n.step env e) := by
  cases e with
  | userGet chunkfile outputfile =>
      exact h.userGet chunkfile outputfile hI
  | timeoutCheck =>
      exact h.exec (timeoutCheck_leads env n) hI
  | getAllTheThingz =>
      exact h.exec (getAllTheThingz_leads env n) hI
  | ihave src packet =>
      unfold Node.step handle
      rw [Node.exec_discard]
      exact h.exec (processIhave_leads env src packet n) hI
  | data src packet => exact hData src packet rfl
  | peerCc => exact hReceives.elim
  | get src packet => exact hReceives.elim
  | ack src packet => exact hReceives.elim

/- The other events serve, and may stop. -/
theorem step_serves
    (env : Env)
    (n : Node)
    {e : NodeEvent}
    (hServes : ¬ e.receives) :
    ∃ m, Served n m ∧
      (n.step env e = m ∨
        ∃ f, n.step env e = m.halt f) := by
  have hCall :
      ∀ {α : Type} (x : Prog α), Serves n x →
        ∃ m, Served n m ∧
          (n.exec x = m ∨ ∃ f, n.exec x = m.halt f) := by
    intro α x hServes
    unfold Node.exec
    split
    · exact ⟨n, .refl n, .inl rfl⟩
    unfold Serves wp at hServes
    split
    · next hResult =>
        rw [hResult] at hServes
        exact ⟨_, hServes, .inl rfl⟩
    · next f _ hResult =>
        rw [hResult] at hServes
        exact ⟨_, hServes.1, .inr ⟨f, rfl⟩⟩
  cases e with
  | peerCc => exact hCall _ (peerCc_serves env n)
  | get src packet =>
      unfold Node.step handle
      rw [Node.exec_discard]
      exact hCall _ (processGet_serves env src packet n)
  | ack src packet =>
      unfold Node.step handle
      rw [Node.exec_discard]
      exact hCall _ (processAck_serves src packet n)
  | userGet _ _ => exact absurd trivial hServes
  | timeoutCheck => exact absurd trivial hServes
  | getAllTheThingz => exact absurd trivial hServes
  | ihave _ _ => exact absurd trivial hServes
  | data _ _ => exact absurd trivial hServes

end

end PeerNet
