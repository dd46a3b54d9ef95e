import PeerNet.Receiver.Links

/-
  The connection limit.

  `send_get` is to count a download in `cur_download`, which
  `finish_chunk` lowers, and it raises `max_conn` instead.
  So the limit is kept up to the first GET and never after
  it. A scan sends a GET exactly when it may start a
  download and a chunk that is needed was announced, since
  before the first GET no peer is busy and none is bad.

  Main declarations:
    * `LimitKept`
    * `Quiet`
    * `limit_of_quiet_run`
-/

------------------------------------------------------------
-- The Limit
------------------------------------------------------------

namespace PeerNet

open Runs

/- The number of peers a chunk is fetched from. -/
def busyPeers
    (c : BtConfig) : Nat :=
  c.peers.countP fun p => (c.peer p).downloading

/- The limit is `limit`, and the downloads are within it. -/
structure LimitKept
    (limit : Int)
    (c : BtConfig) : Prop where
  maxConn : c.maxConn = limit
  counted : c.curDownload = busyPeers c
  within : (busyPeers c : Int) ≤ limit

/- A scan would find no chunk to ask a peer for. -/
def Silent
    (c : BtConfig) : Prop :=
  c.maxConn ≤ c.curDownload ∨
    ∀ r chunk, c.chunk r = some chunk →
      chunk.downloaded = false → chunk.peer = none →
        chunk.peers = []

/- The event is not a scan that sends a GET. -/
def Quiet
    (n : Node) : NodeEvent → Prop
| .getAllTheThingz => Silent n.config
| _ => True

end PeerNet

------------------------------------------------------------
-- Before the First GET
------------------------------------------------------------

namespace PeerNet

open Runs

/- No GET was sent so far. -/
structure Calm
    (limit : Int)
    (n : Node) : Prop where
  links : LinkInvariant n
  maxConn : n.config.maxConn = limit
  curDownload : n.config.curDownload = 0
  free : ∀ p, n.config.target p = none

variable {env : Env} {call : Call} {limit : Int}
variable {n m : Node}

theorem Calm.limitKept
    (h : Calm limit n)
    (hLimit : 0 ≤ limit) :
    LimitKept limit n.config := by
  have hIdle : busyPeers n.config = 0 := by
    unfold busyPeers
    rw [List.countP_eq_zero]
    intro p hp
    rw [h.links.paired.busy p hp, h.free p]
    simp
  refine ⟨h.maxConn, ?_, ?_⟩
  · rw [h.curDownload, hIdle]
    rfl
  · rw [hIdle]
    exact hLimit

/- Items are loaded with neither side pointing anywhere. -/
theorem load_calm
    (chunkfile outputfile : Path)
    (items : List Item)
    (c : BtConfig) :
    (c.load chunkfile outputfile items).maxConn =
        c.maxConn ∧
      (c.load chunkfile outputfile items).curDownload = 0 ∧
        ∀ p, (c.load chunkfile outputfile items).target p =
          none := by
  have hItems :
      ∀ (items : List Item) (c : BtConfig),
        (items.foldl BtConfig.addItem c).maxConn =
            c.maxConn ∧
          (items.foldl BtConfig.addItem c).curDownload =
              c.curDownload ∧
            (items.foldl BtConfig.addItem c).target =
              c.target := by
    intro items
    induction items with
    | nil => exact fun c => ⟨rfl, rfl, rfl⟩
    | cons item items ih =>
        intro c
        exact ih (c.addItem item)
  rcases hItems items (c.startGet chunkfile outputfile) with
    ⟨hMax, hCur, hTarget⟩
  refine ⟨hMax, hCur, ?_⟩
  intro p
  unfold BtConfig.load
  rw [hTarget]
  by_cases hp : p ∈ c.peers
  · simp [BtConfig.target, hp, BtConfig.resetPeer]
  · simp [BtConfig.target, hp]

/- Every move but a fetch keeps the calm. -/
theorem Calm.move
    (hClock : PositiveClock env)
    (h : Calm limit n)
    (hMove : Move env call n m)
    (hNoFetch :
      call = .getAllTheThingz → Silent n.config) :
    Calm limit m := by
  have hLinks :=
    (linkInvariant_kept call hClock).move n m h.links hMove
  cases hMove with
  | get hGet =>
      cases hGet with
      | _ => exact ⟨hLinks, h.maxConn, h.curDownload, h.free⟩
  | tick => exact ⟨hLinks, h.maxConn, h.curDownload, h.free⟩
  | whohas now =>
      exact ⟨hLinks, h.maxConn, h.curDownload, h.free⟩
  | push d _ =>
      exact ⟨hLinks, h.maxConn, h.curDownload, h.free⟩
  | counted _ cur _ _ =>
      refine ⟨hLinks, h.maxConn, h.curDownload, fun p => ?_⟩
      have hSame :
          (n.config.countTimeout cur).target =
            n.config.target :=
        BtConfig.target_setPeer_same rfl
      exact (congrFun hSame p).trans (h.free p)
  | gaveUp _ cur r chunk packets now hCur hTarget _ _ =>
      rw [← BtConfig.target_of_mem hCur, h.free cur]
        at hTarget
      cases hTarget
  | fetched _ p q r chunk hLimit hLive hNeeded hUnassigned
      hHas _ _ =>
      rcases hNoFetch rfl with hFull | hNone
      · omega
      · rw [hNone r chunk hLive hNeeded hUnassigned] at hHas
        cases hHas
  | cleared _ p _ =>
      refine ⟨hLinks, h.maxConn, h.curDownload, fun q => ?_⟩
      have hSame :
          (n.config.clearBad p).target = n.config.target :=
        BtConfig.target_setPeer_same rfl
      exact (congrFun hSame q).trans (h.free q)
  | announced _ r p _ _ =>
      exact ⟨hLinks, h.maxConn, h.curDownload, h.free⟩
  | loaded _ chunkfile outputfile items _ _ =>
      rcases load_calm chunkfile outputfile items n.config
        with ⟨hMax, hCur, hFree⟩
      exact ⟨hLinks, hMax.trans h.maxConn, hCur, hFree⟩

/- DATA finds no fetch. -/
theorem Calm.data
    (h : Calm limit n)
    {src : Addr}
    {packet : Packet}
    {ack : Option Int}
    {counted : Bool}
    (hStep : DataStep env src packet n ack counted m) :
    Calm limit m := by
  have hNone :
      ∀ p r, ¬ Fetching n.config src p r := by
    intro p r hFetching
    have hTarget := hFetching.target
    rw [h.free p] at hTarget
    cases hTarget
  cases hStep with
  | ignored _ => exact h
  | refused p r hFetching _ =>
      exact absurd hFetching (hNone p r)
  | stored p r chunk nodes hTaking _ =>
      exact absurd hTaking.toFetching (hNone p r)
  | stopped p q r chunk nodes g f hFilling _ =>
      exact absurd hFilling.toFetching (hNone p r)
  | rejected p q r chunk nodes hFilling _ =>
      exact absurd hFilling.toFetching (hNone p r)
  | unrecorded p q r chunk nodes hFilling _ _ =>
      exact absurd hFilling.toFetching (hNone p r)
  | recorded p q r chunk nodes id hFilling _ _ _ =>
      exact absurd hFilling.toFetching (hNone p r)

/- Without a scan. -/
theorem calm_kept
    (call : Call)
    (hClock : PositiveClock env)
    (hCall : call ≠ .getAllTheThingz) :
    Kept env call (Calm limit) where
  paired := fun n h => h.links.paired
  move := fun n m h hMove =>
    h.move hClock hMove fun hIs => absurd hIs hCall
  push := fun n d h =>
    ⟨⟨h.links.paired, h.links.whole, h.links.fault⟩,
      h.maxConn, h.curDownload, h.free⟩
  served := by
    intro n m h hServed
    have hLinks :=
      (linkInvariant_kept call hClock).served n m
        h.links hServed
    rcases hServed with ⟨upload, queue, reads, rfl⟩
    exact ⟨hLinks, h.maxConn, h.curDownload, h.free⟩
  halt := by
    intro n f hOther h
    have hLinks :=
      (linkInvariant_kept call hClock).halt n f
        hOther h.links
    exact ⟨hLinks, h.maxConn, h.curDownload, h.free⟩

/- A silent scan stays silent. -/
theorem Silent.move
    (h : Silent n.config)
    (hMove : Move env .getAllTheThingz n m) :
    Silent m.config := by
  cases hMove with
  | get hGet =>
      cases hGet with
      | dropped _ =>
          rcases h with hFull | hNone
          · exact .inl hFull
          · right
            intro r chunk hLive hNeeded hUnassigned
            rw [Node.onConfig_config,
              BtConfig.dropDownload_chunk] at hLive
            by_cases hListed : r ∈ n.config.download
            · simp [hListed] at hLive
            · rw [if_neg hListed] at hLive
              exact hNone r chunk hLive hNeeded hUnassigned
      | _ => exact h
  | fetched _ p q r chunk hLimit hLive hNeeded hUnassigned
      hHas _ _ =>
      rcases h with hFull | hNone
      · omega
      · rw [hNone r chunk hLive hNeeded hUnassigned] at hHas
        cases hHas
  | _ => exact h

/- A calm process with nothing to ask for. -/
def SilentCalm
    (limit : Int)
    (n : Node) : Prop :=
  Calm limit n ∧ Silent n.config

theorem silentCalm_kept
    (hClock : PositiveClock env) :
    Kept env .getAllTheThingz (SilentCalm limit) where
  paired := fun n h => h.1.links.paired
  move := fun n m h hMove =>
    ⟨h.1.move hClock hMove fun _ => h.2, h.2.move hMove⟩
  push := fun n d h =>
    ⟨(calm_kept .ihave hClock (by simp)).push n d h.1, h.2⟩
  served := by
    intro n m h hServed
    have hCalm :=
      (calm_kept .ihave hClock (by simp)).served
        n m h.1 hServed
    rcases hServed with ⟨upload, queue, reads, rfl⟩
    exact ⟨hCalm, h.2⟩
  halt := fun n f hOther h =>
    ⟨(calm_kept .ihave hClock (by simp)).halt n f hOther h.1, h.2⟩

theorem Calm.step
    (hClock : PositiveClock env)
    (h : Calm limit n)
    {e : NodeEvent}
    (hPromised : Promised n e)
    (hQuiet : Quiet n e) :
    Calm limit (n.step env e) := by
  by_cases hScan : e = .getAllTheThingz
  · subst hScan
    have hBoth :
        SilentCalm limit (n.step env .getAllTheThingz) := by
      apply Kept.step (e := .getAllTheThingz)
        (silentCalm_kept hClock)
      · intro chunkfile outputfile hEq
        cases hEq
      · intro src packet hEq
        cases hEq
      · exact ⟨h, hQuiet⟩
    exact hBoth.1
  · have hCall : callOf e ≠ .getAllTheThingz := by
      cases e <;> simp [callOf] at hScan ⊢
    apply (calm_kept _ hClock hCall).step
    · rintro chunkfile outputfile rfl
      exact hPromised
    · rintro src packet rfl ack counted m hStep
      exact h.data hStep
    · exact h

end PeerNet

------------------------------------------------------------
-- Quiet Runs
------------------------------------------------------------

namespace PeerNet

open Runs

/- Steps that the callers promise, and that send no GET. -/
def PromisedQuiet
    (n : Node)
    (e : NodeEvent) : Prop :=
  Promised n e ∧ Quiet n e

theorem Configured.calm
    {n : Node}
    (h : Configured n) :
    Calm n.config.maxConn n where
  links := h.linkInvariant
  maxConn := rfl
  curDownload := h.curDownload
  free := by
    intro p
    by_cases hp : p ∈ n.config.peers
    · simp [BtConfig.target, hp, h.free p hp]
    · simp [BtConfig.target, hp]

/- Up to the first GET the limit of `-m` is kept. -/
theorem limit_of_quiet_run
    {env : Env}
    (hClock : PositiveClock env)
    {n₀ n : Node}
    (hStart : Configured n₀)
    (hLimit : 0 ≤ n₀.config.maxConn)
    (hRun : Reaches (Node.step env) PromisedQuiet n₀ n) :
    LimitKept n₀.config.maxConn n.config := by
  have hCalm : Calm n₀.config.maxConn n := by
    apply hRun.invariant hStart.calm
    intro m e h hAllow
    exact h.step hClock hAllow.1 hAllow.2
  exact hCalm.limitKept hLimit

/- A scan with nothing to ask for, and a user GET. -/
theorem limit_of_quiet_run_oneChunk :
    LimitKept 1
      (foldSteps (Node.step stillEnv) oneChunkNode
        [.getAllTheThingz, .userGet [4] [3],
          .timeoutCheck]).config := by
  have hSilent : Silent oneChunkNode.config := by
    right
    intro r chunk hLive
    cases hLive
  have hRun :
      Reaches (Node.step stillEnv) PromisedQuiet
        oneChunkNode
        (foldSteps (Node.step stillEnv) oneChunkNode
          [.getAllTheThingz, .userGet [4] [3],
            .timeoutCheck]) :=
    reaches_foldSteps
      ⟨⟨trivial, hSilent⟩, ⟨rfl, trivial⟩,
        ⟨trivial, trivial⟩, trivial⟩
  exact
    limit_of_quiet_run stillEnv_clock
      oneChunkNode_configured (by decide) hRun

/- The first GET raises the limit, and counts nothing. -/
theorem limit_raised_oneChunk :
    ¬ ∀ (env : Env) (n₀ n : Node),
      PositiveClock env → Configured n₀ →
        0 ≤ n₀.config.maxConn → Run env n₀ n →
          LimitKept n₀.config.maxConn n.config := by
  intro hClaim
  have hRun :
      Run stillEnv oneChunkNode
        (foldSteps (Node.step stillEnv) oneChunkNode
          [.userGet [4] [3], .ihave ⟨1, 1⟩ oneChunkIhave,
            .getAllTheThingz]) := by
    apply reaches_foldSteps
    refine ⟨rfl, ?_, trivial, trivial⟩
    change (peerWithAddr _ _).isSome = true
    decide
  have hKept :=
    hClaim stillEnv oneChunkNode _ stillEnv_clock
      oneChunkNode_configured (by decide) hRun
  have hRaised :
      (foldSteps (Node.step stillEnv) oneChunkNode
        [.userGet [4] [3], .ihave ⟨1, 1⟩ oneChunkIhave,
          .getAllTheThingz]).config.maxConn = 2 := by
    decide
  have hSame := hKept.maxConn
  rw [hRaised] at hSame
  cases hSame

end PeerNet
