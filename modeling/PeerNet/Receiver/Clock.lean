import PeerNet.Receiver.Specs

/-
  Calls during which the clock does not move.

  Of the environment's clock a call sees the readings it
  makes and no other. Where these are all the same, the call
  runs as with a clock that has stopped for good, so that
  what is proved with a stopped clock holds of it.

  Key definitions include:
    * `Env.Stands`
    * `Env.stopped`
    * `Agrees`

  Key theorems include:
    * `Agrees.bind`
    * `Agrees.exec`
    * `agrees_getAllTheThingz`
-/

------------------------------------------------------------
-- Stopped Clocks
------------------------------------------------------------

namespace PeerNet

/- The readings from one to another are all the same. -/
def Env.Stands
    (env : Env)
    (now : Int)
    (first last : Nat) : Prop :=
  ∀ k, first ≤ k → k < last → env.clock k = now

/- The environment with a clock that has stopped. -/
@[simps]
def Env.stopped
    (now : Int)
    (env : Env) : Env :=
  { env with clock := fun _ => now }

theorem Env.Stands.mono
    {env : Env}
    {now : Int}
    {i j k l : Nat}
    (h : env.Stands now i l)
    (hFirst : i ≤ j)
    (hLast : k ≤ l) :
    env.Stands now j k :=
  fun m hm hm' =>
    h m (hFirst.trans hm) (Nat.lt_of_lt_of_le hm' hLast)

end PeerNet

------------------------------------------------------------
-- Agreement
------------------------------------------------------------

namespace PeerNet

open Prog

section

variable {α β : Type}

/- The clock is not read. -/
def Timeless
    (x : Prog α) : Prop :=
  ∀ n, wp x (fun _ m => m.reads = n.reads)
    (fun _ m => m.reads = n.reads) n

/- If the clock stands during `x`, then `y` runs as `x`. -/
def Agrees
    (env : Env)
    (now : Int)
    (x y : Prog α) : Prop :=
  ∀ n, wp x
    (fun a m => n.reads ≤ m.reads ∧
      (env.Stands now n.reads m.reads → y n = .ok a m))
    (fun f m => n.reads ≤ m.reads ∧
      (env.Stands now n.reads m.reads → y n = .error f m)) n

variable {env : Env} {now : Int}

theorem Timeless.agrees
    {x : Prog α}
    (h : Timeless x) :
    Agrees env now x x := by
  intro n
  have hReads := h n
  unfold wp at hReads ⊢
  cases hRun : x n with
  | ok a m =>
      rw [hRun] at hReads
      exact ⟨hReads.ge, fun _ => rfl⟩
  | error f m =>
      rw [hRun] at hReads
      exact ⟨hReads.ge, fun _ => rfl⟩

/- Calls that agree one after another agree. -/
theorem Agrees.bind
    {x y : Prog α}
    {f g : α → Prog β}
    (hx : Agrees env now x y)
    (hf : ∀ a, Agrees env now (f a) (g a)) :
    Agrees env now (x >>= f) (y >>= g) := by
  intro n
  rw [wp_bind]
  apply wp_mono (hx n)
  · rintro a m ⟨hFirst, hRun⟩
    have hBind :
        ∀ last, m.reads ≤ last →
          env.Stands now n.reads last →
          (y >>= g) n = g a m := by
      intro last hLast hStands
      change EStateM.bind y g n = g a m
      unfold EStateM.bind
      rw [hRun (hStands.mono (Nat.le_refl _) hLast)]
    apply wp_mono (hf a m)
    · rintro b k ⟨hNext, hRest⟩
      refine ⟨hFirst.trans hNext, fun hStands => ?_⟩
      rw [hBind _ hNext hStands]
      exact hRest (hStands.mono hFirst (Nat.le_refl _))
    · rintro e k ⟨hNext, hRest⟩
      refine ⟨hFirst.trans hNext, fun hStands => ?_⟩
      rw [hBind _ hNext hStands]
      exact hRest (hStands.mono hFirst (Nat.le_refl _))
  · rintro e m ⟨hFirst, hRun⟩
    refine ⟨hFirst, fun hStands => ?_⟩
    change EStateM.bind y g n = _
    unfold EStateM.bind
    rw [hRun hStands]

theorem Agrees.ite
    {c : Prop} [Decidable c]
    {x y x' y' : Prog α}
    (hThen : Agrees env now x y)
    (hElse : Agrees env now x' y') :
    Agrees env now (if c then x else x')
      (if c then y else y') := by
  by_cases hc : c
  · rw [if_pos hc, if_pos hc]
    exact hThen
  · rw [if_neg hc, if_neg hc]
    exact hElse

/- A process does the same in both. -/
theorem Agrees.exec
    {x y : Prog α}
    {n : Node}
    (h : Agrees env now x y)
    (hStands : env.Stands now n.reads (n.exec x).reads) :
    n.exec x = n.exec y := by
  have hEnd := h n
  unfold Node.exec at hStands ⊢
  split
  · rfl
  · next hRunning =>
      rw [if_neg hRunning] at hStands
      unfold wp at hEnd
      cases hRun : x n with
      | ok a m =>
          rw [hRun] at hEnd hStands
          rw [hEnd.2 hStands]
      | error f m =>
          rw [hRun] at hEnd hStands
          rw [hEnd.2 hStands]

end

------------------------------------------------------------
-- Single Steps
------------------------------------------------------------

section

variable {α : Type} {env : Env} {now : Int}

theorem Agrees.pure
    (a : α) :
    Agrees env now (pure a) (pure a) :=
  Timeless.agrees fun _ => rfl

theorem Agrees.throw
    (f : Fault) :
    Agrees env now (throw f : Prog α) (throw f) :=
  Timeless.agrees fun _ => rfl

theorem Agrees.get :
    Agrees env now (get : Prog Node) get :=
  Timeless.agrees fun _ => rfl

theorem Agrees.onConfig
    (f : BtConfig → BtConfig) :
    Agrees env now (modify (Node.onConfig f) : Prog Unit)
      (modify (Node.onConfig f)) :=
  Timeless.agrees fun _ => rfl

theorem Agrees.emit
    (e : Event) :
    Agrees env now (modify (Node.emit e) : Prog Unit)
      (modify (Node.emit e)) :=
  Timeless.agrees fun _ => rfl

theorem timeless_derefChunk
    (r : ChunkRef) :
    Timeless (derefChunk r) := by
  intro n
  rw [wp_derefChunk]
  exact ⟨fun _ => rfl, fun _ _ => rfl⟩

theorem timeless_packetNew
    (p : Packet)
    (a : Addr) :
    Timeless (packetNew p a) :=
  fun _ => wp_packetNew (fun _ => rfl) rfl rfl

theorem timeless_forM
    {f : α → Prog Unit}
    (xs : List α)
    (h : ∀ x ∈ xs, Timeless (f x)) :
    Timeless (xs.forM f) := by
  intro n
  apply wp_forM (I := fun m : Node => m.reads = n.reads)
  · intro x hx m hm
    apply wp_mono (h x hx m)
    · exact fun _ _ hSame => hSame.trans hm
    · exact fun _ _ hSame => hSame.trans hm
  · rfl

/- A clock that stands gives what the stopped one gives. -/
theorem agrees_timeMillis :
    Agrees env now (timeMillis env)
      (timeMillis (env.stopped now)) := by
  intro n
  rw [wp_timeMillis]
  refine ⟨Nat.le_succ _, fun hStands => ?_⟩
  rw [hStands n.reads (Nat.le_refl _) (Nat.lt_succ_self _)]
  rfl

end

------------------------------------------------------------
-- The Scan
------------------------------------------------------------

variable (env : Env) (now : Int)

theorem agrees_isBad
    (peer : BtPeer) :
    Agrees env now (isBad env peer)
      (isBad (env.stopped now) peer) := by
  unfold isBad
  apply Agrees.ite
  · exact agrees_timeMillis.bind fun _ => .pure _
  · exact .pure _

theorem agrees_sendWhohas :
    Agrees env now (sendWhohas env)
      (sendWhohas (env.stopped now)) := by
  unfold sendWhohas
  apply Agrees.get.bind
  intro n
  apply Agrees.ite (.pure _)
  apply agrees_timeMillis.bind
  intro first
  apply Agrees.ite (.pure _)
  apply agrees_timeMillis.bind
  intro last
  apply (Agrees.onConfig _).bind
  intro _
  apply Agrees.ite (.throw _)
  refine Agrees.bind (Timeless.agrees ?_) fun _ => .pure _
  apply timeless_forM
  intro peer _
  split
  · exact timeless_packetNew _ _
  · exact fun _ => rfl

theorem agrees_sendGet
    (dest : Addr)
    (r : ChunkRef) :
    Agrees env now (sendGet env dest r)
      (sendGet (env.stopped now) dest r) := by
  unfold sendGet
  apply Agrees.get.bind
  intro n
  apply Agrees.ite (.pure _)
  apply (Agrees.onConfig _).bind
  intro _
  split
  · exact .throw _
  · apply agrees_timeMillis.bind
    intro first
    apply (Agrees.onConfig _).bind
    intro _
    apply (timeless_derefChunk r).agrees.bind
    intro chunk
    apply (Agrees.emit _).bind
    intro _
    exact (timeless_packetNew _ _).agrees.bind fun _ => .pure _

theorem agrees_scanPeers
    (r : ChunkRef)
    (ps : List PeerRef)
    (allBad : Bool) :
    Agrees env now (scanPeers env r ps allBad)
      (scanPeers (env.stopped now) r ps allBad) := by
  induction ps generalizing allBad with
  | nil => exact .pure _
  | cons p rest ih =>
      unfold scanPeers
      apply Agrees.get.bind
      intro n
      apply (agrees_isBad env now _).bind
      intro bad
      apply Agrees.get.bind
      intro m
      apply Agrees.ite (ih _)
      apply (agrees_isBad env now _).bind
      intro bad'
      apply Agrees.ite (ih _)
      exact (agrees_sendGet env now _ r).bind fun _ => .pure _

theorem agrees_scanChunks
    (rs : List ChunkRef) :
    Agrees env now (scanChunks env rs)
      (scanChunks (env.stopped now) rs) := by
  induction rs with
  | nil => exact .pure _
  | cons r rest ih =>
      unfold scanChunks
      apply Agrees.get.bind
      intro n
      apply Agrees.ite
      · apply (timeless_derefChunk r).agrees.bind
        intro chunk
        apply Agrees.ite
        · apply (agrees_scanPeers env now r _ _).bind
          intro allBad
          apply Agrees.ite _ ih
          exact (agrees_sendWhohas env now).bind fun _ => ih
        · exact ih
      · exact .pure _

/- A scan during which the clock stands. -/
theorem agrees_getAllTheThingz :
    Agrees env now (getAllTheThingz env)
      (getAllTheThingz (env.stopped now)) :=
  Agrees.get.bind fun n =>
    agrees_scanChunks env now n.config.download

end PeerNet
