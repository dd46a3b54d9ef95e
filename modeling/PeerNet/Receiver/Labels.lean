import PeerNet.Lib.Runs
import PeerNet.Receiver.Links
import PeerNet.Receiver.Timeouts

/-
  When a peer is labelled bad.

  `Observed` records next to a process when each peer was last
  heard from (the GET sent to it, DATA for the fetch from it,
  an IHAVE of it), when after that a pass last found it
  overdue, and the labels of `timeout_check`.

  `consec_timeouts` is raised on every pass of the main loop
  that finds a peer overdue, and `send_get` does not clear
  it. Where a pass finds a peer overdue only a whole
  `TIMEOUT_MILLIS` after it was last heard from and last
  found overdue, and a GET goes only to a peer whose counter
  is zero, a label means `MAX_TIMEOUTS` silent periods. Else
  five passes in a row label a peer.

  Key definitions include:
    * `Observed`
    * `Observed.InTime`
    * `Observed.FairLabels`

  Key results include:
    * `Observed.Accounted.step`
    * `fair_labels_of_run`
    * `unfair_label`
-/

------------------------------------------------------------
-- Times of Labels
------------------------------------------------------------

namespace PeerNet

open Runs

/- `timeout_check` labelled a peer bad. -/
structure Label where
  peer : PeerRef
  heard : Option Int
  time : Int
deriving DecidableEq

/-
  A process with what an observer with the same clock notes:
  when each peer was last heard from, the last time that it
  was heard from or found overdue, and the labels.
-/
structure Observed where
  node : Node
  heard : PeerRef → Option Int
  since : PeerRef → Int
  labels : List Label

/-
  When the event is a sign of life of the peer, its time: DATA
  of a fetch from it, an IHAVE of it, or a GET sent to it,
  whose time `send_get` writes to `last_response`.
-/
def heardAt
    (env : Env)
    (n : Node)
    (e : NodeEvent)
    (p : PeerRef) : Option Int :=
  match e with
  | .data src _ =>
      if peerWithAddr src n.config = some p ∧
          (n.config.peer p).chunk.isSome then
        some (env.clock n.reads)
      else
        none
  | .ihave src _ =>
      if peerWithAddr src n.config = some p then
        some (env.clock n.reads)
      else
        none
  | .getAllTheThingz =>
      let m := n.step env .getAllTheThingz
      if p ∈ askedIn n m then
        some (m.config.peer p).lastResponse
      else
        none
  | _ => none

theorem heardAt_data
    (env : Env)
    (n : Node)
    (src : Addr)
    (packet : Packet)
    (p : PeerRef) :
    heardAt env n (.data src packet) p =
      if peerWithAddr src n.config = some p ∧
          (n.config.peer p).chunk.isSome then
        some (env.clock n.reads)
      else
        none := rfl

theorem heardAt_ihave
    (env : Env)
    (n : Node)
    (src : Addr)
    (packet : Packet)
    (p : PeerRef) :
    heardAt env n (.ihave src packet) p =
      if peerWithAddr src n.config = some p then
        some (env.clock n.reads)
      else
        none := rfl

theorem heardAt_scan
    (env : Env)
    (n : Node)
    (p : PeerRef) :
    heardAt env n .getAllTheThingz p =
      if p ∈ askedIn n (n.step env .getAllTheThingz) then
        some ((n.step env .getAllTheThingz).config.peer
          p).lastResponse
      else
        none := rfl

namespace Observed

/- A process at its start. -/
def start
    (n : Node) : Observed :=
  ⟨n, fun _ => none, fun _ => 0, []⟩

/- A pass at this time finds the peer overdue. -/
def FoundOverdue
    (n : Node)
    (now : Int)
    (p : PeerRef) : Prop :=
  n.config.download ≠ [] ∧ p ∈ n.config.peers ∧
    (n.config.peer p).Overdue now

instance
    (n : Node)
    (now : Int)
    (p : PeerRef) :
    Decidable (FoundOverdue n now p) :=
  inferInstanceAs (Decidable (_ ∧ _ ∧ _))

/- A pass gave the peer up: only this clears the time there. -/
def labelledIn
    (n m : Node)
    (p : PeerRef) : Bool :=
  (n.config.peer p).lastResponse ≠ -1 ∧
    (m.config.peer p).lastResponse = -1

/- One event; a process at a fault does nothing more. -/
def step
    (env : Env)
    (t : Observed)
    (e : NodeEvent) : Observed :=
  let n := t.node
  let now := env.clock n.reads
  let m := n.step env e
  if n.fault.isSome then
    t
  else
    match e with
    | .timeoutCheck =>
        { t with
          node := m
          since := fun p =>
            if FoundOverdue n now p then now else t.since p
          labels := t.labels ++
            (n.config.peers.filter (labelledIn n m)).map
              fun p => ⟨p, t.heard p, now⟩ }
    | _ =>
        { t with
          node := m
          heard := fun p =>
            (heardAt env n e p).or (t.heard p)
          since := fun p =>
            (heardAt env n e p).getD (t.since p) }

/-
  A pass finds a peer overdue only `TIMEOUT_MILLIS` or more
  after it was last heard from and last found overdue, and a
  GET goes only to a peer whose counter is zero.
-/
def InTime
    (env : Env)
    (t : Observed) :
    NodeEvent → Prop
| .timeoutCheck =>
    t.node.config.download ≠ [] →
      ∀ p ∈ t.node.config.peers,
        (t.node.config.peer p).Overdue
            (env.clock t.node.reads) →
          t.since p + timeoutMillis ≤
            env.clock t.node.reads
| .getAllTheThingz =>
    ∀ p ∈ askedIn t.node (t.node.step env .getAllTheThingz),
      (t.node.config.peer p).consecTimeouts = 0
| _ => True

instance
    (env : Env)
    (t : Observed) :
    DecidablePred (InTime env t)
| .timeoutCheck => inferInstanceAs (Decidable (_ → _))
| .getAllTheThingz =>
    inferInstanceAs
      (Decidable
        (∀ p ∈ askedIn t.node
          (t.node.step env .getAllTheThingz),
          (t.node.config.peer p).consecTimeouts = 0))
| .userGet _ _ => isTrue trivial
| .peerCc => isTrue trivial
| .ihave _ _ => isTrue trivial
| .get _ _ => isTrue trivial
| .data _ _ => isTrue trivial
| .ack _ _ => isTrue trivial

/-
  Every label comes `MAX_TIMEOUTS` periods after the peer was
  last heard from.
-/
def FairLabels
    (t : Observed) : Prop :=
  ∀ l ∈ t.labels, ∃ h, l.heard = some h ∧
    h + maxTimeouts * timeoutMillis ≤ l.time

/-
  The counter of a peer is covered by the time since it was
  heard from.
-/
structure Accounted
    (t : Observed) : Prop where
  nodup : t.node.config.peers.Nodup
  order : ∀ p h, t.heard p = some h → h ≤ t.since p
  expecting : t.node.config.download ≠ [] →
    ∀ p ∈ t.node.config.peers,
      (t.node.config.peer p).lastResponse ≠ -1 →
        (t.heard p).isSome
  covered : t.node.config.download ≠ [] →
    ∀ p ∈ t.node.config.peers, ∀ h, t.heard p = some h →
      h + timeoutMillis *
          (t.node.config.peer p).consecTimeouts ≤
        t.since p
  fair : FairLabels t

section

variable {env : Env} {t : Observed} {e : NodeEvent}

/- A pass of `timeout_check`, spelled out. -/
theorem step_pass
    (hRun : t.node.fault = none) :
    t.step env .timeoutCheck =
      { t with
        node := t.node.step env .timeoutCheck
        since := fun p =>
          if FoundOverdue t.node (env.clock t.node.reads)
              p then
            env.clock t.node.reads
          else
            t.since p
        labels := t.labels ++
          (t.node.config.peers.filter
            (labelledIn t.node
              (t.node.step env .timeoutCheck))).map
            fun p =>
              ⟨p, t.heard p, env.clock t.node.reads⟩ } := by
  unfold Observed.step
  simp only [hRun, Option.isSome_none, Bool.false_eq_true,
    if_false]

/- A pass without a download notes nothing. -/
theorem step_pass_idle
    (hNone : t.node.config.download = []) :
    t.step env .timeoutCheck = t := by
  cases hRun : t.node.fault with
  | some f =>
      unfold Observed.step
      simp [hRun]
  | none =>
      rw [step_pass hRun, step_timeoutCheck_idle env hNone]
      have hFound (p : PeerRef) :
          ¬ FoundOverdue t.node (env.clock t.node.reads) p :=
        fun h => h.1 hNone
      have hLabelled :
          t.node.config.peers.filter
            (labelledIn t.node t.node) = [] := by
        rw [List.filter_eq_nil_iff]
        intro p _
        simp [labelledIn]
      simp only [hFound, hLabelled, if_false, List.map_nil,
        List.append_nil]

/- One pass, in time. -/
theorem Accounted.pass
    (h : Accounted t)
    (hRun : t.node.fault = none)
    (hInTime : InTime env t .timeoutCheck) :
    Accounted (t.step env .timeoutCheck) := by
  by_cases hNone : t.node.config.download = []
  · rw [step_pass_idle hNone]
    exact h
  rcases step_timeoutCheck env h.nodup with
    ⟨_, _, hAged⟩
  have hPeriod : timeoutMillis = 15000 := rfl
  have hPeriods : maxTimeouts = 5 := rfl
  rw [step_pass hRun]
  refine ⟨?_, ?_, ?_, ?_, ?_⟩
  · dsimp only
    rw [hAged.peers]
    exact h.nodup
  · intro p time hHeard
    have hOrder := h.order p time hHeard
    dsimp only
    split
    · next hFound =>
        have hGap := hInTime hNone p hFound.2.1 hFound.2.2
        omega
    · exact hOrder
  · intro _ p hp hSome
    dsimp only at hp hSome
    rw [hAged.peers] at hp
    apply h.expecting hNone p hp
    rcases (hAged.aged p).last with hSame | ⟨_, hLost, _⟩
    · rw [← hSame]
      exact hSome
    · exact absurd hLost hSome
  · intro _ p hp time hHeard
    dsimp only at hp hHeard ⊢
    rw [hAged.peers] at hp
    have hCovered := h.covered hNone p hp time hHeard
    rw [hPeriod] at hCovered ⊢
    split
    · next hFound =>
        have hGap := hInTime hNone p hp hFound.2.2
        rw [hPeriod] at hGap
        rcases (hAged.aged p).count with hSame | ⟨_, hMore⟩
        · rw [hSame]
          omega
        · rw [hMore]
          omega
    · next hQuiet =>
        rcases (hAged.aged p).count with hSame | ⟨hOverdue, _⟩
        · rw [hSame]
          exact hCovered
        · exact absurd ⟨hNone, hp, hOverdue⟩ hQuiet
  · intro l hl
    rcases List.mem_append.mp hl with hOld | hNew
    · exact h.fair l hOld
    · rcases List.mem_map.mp hNew with ⟨p, hp, rfl⟩
      rcases List.mem_filter.mp hp with ⟨hp, hLabelled⟩
      have hEnds :
          (t.node.config.peer p).lastResponse ≠ -1 ∧
            ((t.node.step env .timeoutCheck).config.peer
              p).lastResponse = -1 := by
        simpa [labelledIn] using hLabelled
      rcases (hAged.aged p).last with
        hSame | ⟨hOverdue, _, hMany⟩
      · exact absurd (hSame.symm.trans hEnds.2) hEnds.1
      · rcases Option.isSome_iff_exists.mp
            (h.expecting hNone p hp hEnds.1) with
          ⟨time, hHeard⟩
        have hCovered := h.covered hNone p hp time hHeard
        have hGap := hInTime hNone p hp hOverdue
        refine ⟨time, hHeard, ?_⟩
        rw [hPeriod] at hGap hCovered
        rw [hPeriods] at hMany
        rw [hPeriod, hPeriods]
        dsimp only
        omega

/- What a call other than a pass leaves of the accounting. -/
structure Settled
    (n m : Node)
    (heard : PeerRef → Option Int) : Prop where
  peers : m.config.peers = n.config.peers
  download :
    m.config.download ≠ [] →
      n.config.download ≠ [] ∨
        ∀ p ∈ n.config.peers,
          (m.config.peer p).consecTimeouts = 0 ∧
            (m.config.peer p).lastResponse = -1
  cleared : ∀ p time, heard p = some time →
    m.config.download ≠ [] →
      (m.config.peer p).consecTimeouts = 0
  count : ∀ p, heard p = none →
    (m.config.peer p).consecTimeouts =
        (n.config.peer p).consecTimeouts ∨
      (m.config.peer p).consecTimeouts = 0
  last : ∀ p, heard p = none →
    (m.config.peer p).lastResponse =
        (n.config.peer p).lastResponse ∨
      (m.config.peer p).lastResponse = -1

theorem Accounted.settled
    {m : Node}
    {heard : PeerRef → Option Int}
    (h : Accounted t)
    (hSettled : Settled t.node m heard) :
    Accounted
      { t with
        node := m
        heard := fun p => (heard p).or (t.heard p)
        since := fun p => (heard p).getD (t.since p) } := by
  have hPeers := hSettled.peers
  refine ⟨?_, ?_, ?_, ?_, h.fair⟩
  · dsimp only
    rw [hPeers]
    exact h.nodup
  · intro p time hHeard
    dsimp only at hHeard ⊢
    cases hNow : heard p with
    | some now =>
        rw [hNow, Option.some_or, Option.some.injEq] at hHeard
        rw [hHeard]
        exact Int.le_refl time
    | none =>
        rw [hNow, Option.none_or] at hHeard
        exact h.order p time hHeard
  · intro hSome p hp hResponse
    dsimp only at hSome hp hResponse ⊢
    rw [hPeers] at hp
    cases hNow : heard p with
    | some now => rfl
    | none =>
        rw [Option.none_or]
        rcases hSettled.download hSome with hOld | hReset
        · rcases hSettled.last p hNow with hSame | hGone
          · rw [hSame] at hResponse
            exact h.expecting hOld p hp hResponse
          · exact absurd hGone hResponse
        · exact absurd (hReset p hp).2 hResponse
  · intro hSome p hp time hHeard
    dsimp only at hSome hp hHeard ⊢
    rw [hPeers] at hp
    cases hNow : heard p with
    | some now =>
        rw [hNow, Option.some_or, Option.some.injEq] at hHeard
        rw [hSettled.cleared p now hNow hSome, hHeard,
          Int.mul_zero, Int.add_zero]
        exact Int.le_refl time
    | none =>
        rw [hNow, Option.none_or] at hHeard
        have hOrder := h.order p time hHeard
        have hZero :
            (m.config.peer p).consecTimeouts = 0 →
              time + timeoutMillis *
                  (m.config.peer p).consecTimeouts ≤
                t.since p := by
          intro hCount
          rw [hCount, Int.mul_zero, Int.add_zero]
          exact hOrder
        rcases hSettled.download hSome with hOld | hReset
        · rcases hSettled.count p hNow with hSame | hCount
          · rw [hSame]
            exact h.covered hOld p hp time hHeard
          · exact hZero hCount
        · exact hZero (hReset p hp).1

/- A call that hears from no peer. -/
theorem settled_of_uncounted
    {call : Call}
    {n m : Node}
    {heard : PeerRef → Option Int}
    (h : Uncounted call n m)
    (hCleared : ∀ p time, heard p = some time →
      m.config.download ≠ [] →
        (m.config.peer p).consecTimeouts = 0)
    (hAsked : ∀ p, heard p = none →
      call = .getAllTheThingz → p ∉ askedIn n m) :
    Settled n m heard where
  peers := h.peers
  download hSome :=
    (h.download hSome).imp_right fun hReset => hReset.2
  cleared := hCleared
  count p _ := h.count p
  last p hNone := by
    rcases h.last p with hSame | hGone | ⟨hCall, hIn⟩
    · exact .inl hSame
    · exact .inr hGone
    · exact absurd hIn (hAsked p hNone hCall)

/- DATA: the counter of the peer it is from is cleared. -/
theorem settled_data
    {n : Node}
    (src : Addr)
    (packet : Packet)
    (hRun : n.fault = none) :
    Settled n (n.step env (.data src packet))
      (heardAt env n (.data src packet)) := by
  have hHeard (p : PeerRef) (time : Int)
      (hp : heardAt env n (.data src packet) p = some time) :
      ∃ r, Fetching n.config src p r := by
    rw [heardAt_data] at hp
    split at hp
    · next hFrom =>
        rcases Option.isSome_iff_exists.mp hFrom.2 with
          ⟨r, hr⟩
        exact ⟨r, hFrom.1, hr⟩
    · cases hp
  rcases step_data_uncounted env packet hRun with
    ⟨hNone, hRest⟩ | ⟨p, r, hFetching, hRest⟩
  · refine settled_of_uncounted hRest ?_ (fun _ _ => nofun)
    intro q time hq
    rcases hHeard q time hq with ⟨s, hs⟩
    exact absurd hs (hNone q s)
  · have hBase :
        (n.heard env p).config.peer =
          Function.update n.config.peer p
            { n.config.peer p with
              consecTimeouts := 0
              badTime := 0
              lastResponse := env.clock n.reads } := rfl
    have hOther (q : PeerRef)
        (hq : heardAt env n (.data src packet) q = none) :
        (n.heard env p).config.peer q = n.config.peer q := by
      rw [hBase, Function.update_of_ne]
      rintro rfl
      rw [heardAt_data] at hq
      simp [hFetching.found, hFetching.assigned] at hq
    refine ⟨hRest.peers, ?_, ?_, ?_, ?_⟩
    · intro hSome
      rcases hRest.download hSome with hOld | ⟨hCall, _⟩
      · exact .inl hOld
      · cases hCall
    · intro q time hq _
      rcases hHeard q time hq with ⟨s, hs⟩
      have hSame : q = p :=
        Option.some.inj (hs.found.symm.trans hFetching.found)
      rcases hRest.count q with hCount | hCount
      · rw [hCount, hBase, hSame, Function.update_self]
      · exact hCount
    · intro q hq
      rw [← hOther q hq]
      exact hRest.count q
    · intro q hq
      rw [← hOther q hq]
      rcases hRest.last q with hSame | hGone | ⟨hCall, _⟩
      · exact .inl hSame
      · exact .inr hGone
      · cases hCall

/- An IHAVE: so is the counter of the peer it is from. -/
theorem settled_ihave
    {n : Node}
    (src : Addr)
    (packet : Packet)
    (hRun : n.fault = none) :
    Settled n (n.step env (.ihave src packet))
      (heardAt env n (.ihave src packet)) := by
  have hRest :
      Uncounted .ihave n (n.step env (.ihave src packet)) :=
    step_uncounted (e := .ihave src packet) nofun nofun
  refine settled_of_uncounted hRest ?_ (fun _ _ => nofun)
  intro p time hp hSome
  have hFound : peerWithAddr src n.config = some p := by
    rw [heardAt_ihave] at hp
    split at hp
    · next hFrom => exact hFrom
    · cases hp
  have hActive : n.config.download ≠ [] := by
    rcases hRest.download hSome with hOld | ⟨hCall, _⟩
    · exact hOld
    · cases hCall
  have hCleared :=
    step_ihave_uncounted env packet hRun hActive
      hFound
  rcases hCleared.count p with hSame | hZero
  · rw [hSame]
    simp [BtConfig.clearBad]
  · exact hZero

/- A scan: a GET goes to peers without counted timeouts. -/
theorem settled_scan
    (hInTime : InTime env t .getAllTheThingz) :
    Settled t.node (t.node.step env .getAllTheThingz)
      (heardAt env t.node .getAllTheThingz) := by
  have hRest :
      Uncounted .getAllTheThingz t.node
        (t.node.step env .getAllTheThingz) :=
    step_uncounted (e := .getAllTheThingz) nofun nofun
  refine settled_of_uncounted hRest ?_ ?_
  · intro p time hp _
    rw [heardAt_scan] at hp
    split at hp
    · next hAsked =>
        rcases hRest.count p with hSame | hZero
        · rw [hSame]
          exact hInTime p hAsked
        · exact hZero
    · cases hp
  · intro p hp _ hAsked
    rw [heardAt_scan, if_pos hAsked] at hp
    cases hp

/- The other calls: no peer is heard from. -/
theorem settled_silent
    {n : Node}
    (hPass : e ≠ .timeoutCheck)
    (hScan : e ≠ .getAllTheThingz)
    (hData : ∀ src packet, e ≠ .data src packet)
    (hIhave : ∀ src packet, e ≠ .ihave src packet) :
    Settled n (n.step env e) (heardAt env n e) := by
  have hCall : callOf e ≠ .getAllTheThingz := by
    cases e <;> simp_all [callOf]
  have hNone (p : PeerRef) : heardAt env n e p = none := by
    cases e <;> simp_all [heardAt]
  refine settled_of_uncounted (step_uncounted hPass hData)
    ?_ (fun _ _ hIs => absurd hIs hCall)
  intro p time hp
  rw [hNone p] at hp
  cases hp

/- An event other than a pass, spelled out. -/
theorem step_other
    (hRun : t.node.fault = none)
    (hPass : e ≠ .timeoutCheck) :
    t.step env e =
      { t with
        node := t.node.step env e
        heard := fun p =>
          (heardAt env t.node e p).or (t.heard p)
        since := fun p =>
          (heardAt env t.node e p).getD (t.since p) } := by
  unfold Observed.step
  simp only [hRun, Option.isSome_none, Bool.false_eq_true,
    if_false]

/- Every event, in time. -/
theorem Accounted.step
    (h : Accounted t)
    (hInTime : InTime env t e) :
    Accounted (t.step env e) := by
  cases hRun : t.node.fault with
  | some f =>
      unfold Observed.step
      simpa [hRun] using h
  | none =>
      by_cases hPass : e = .timeoutCheck
      · subst hPass
        exact h.pass hRun hInTime
      rw [step_other hRun hPass]
      apply h.settled
      cases e with
      | data src packet => exact settled_data src packet hRun
      | ihave src packet =>
          exact settled_ihave src packet hRun
      | getAllTheThingz => exact settled_scan hInTime
      | timeoutCheck => exact absurd rfl hPass
      | userGet _ _ =>
          exact settled_silent nofun nofun nofun nofun
      | peerCc => exact settled_silent nofun nofun nofun nofun
      | get _ _ =>
          exact settled_silent nofun nofun nofun nofun
      | ack _ _ =>
          exact settled_silent nofun nofun nofun nofun

end

end Observed

/-
  In every run whose events are in time, a peer is labelled
  bad only `MAX_TIMEOUTS` periods of `TIMEOUT_MILLIS` after
  it was last heard from.
-/
theorem fair_labels_of_run
    {env : Env}
    {n : Node}
    {t : Observed}
    (hNodup : n.config.peers.Nodup)
    (hIdle : n.config.download = [])
    (hRun : Reaches (Observed.step env) (Observed.InTime env)
      (.start n) t) :
    t.FairLabels := by
  have hStart : (Observed.start n).Accounted := by
    refine ⟨hNodup, ?_, ?_, ?_, ?_⟩
    · exact nofun
    · exact fun hSome => absurd hIdle hSome
    · exact fun hSome => absurd hIdle hSome
    · exact fun l hl => (by cases hl)
  have hEnd : t.Accounted :=
    hRun.invariant (I := Observed.Accounted) hStart
      fun _ _ h hInTime => h.step hInTime
  exact hEnd.fair

/-
  A clock whose first two readings, for the WHOHAS and the
  GET, are early; the others are `gap` apart.
-/
def laterEnv
    (gap : Int) : Env :=
  { stillEnv with
    clock := fun reads =>
      if reads < 2 then 1 else 15002 + gap * (reads - 2) }

/- A GET is sent, and then the loop runs five times. -/
def silentPasses : List NodeEvent :=
  [.userGet [4] [3], .ihave ⟨1, 1⟩ oneChunkIhave,
    .getAllTheThingz, .timeoutCheck, .timeoutCheck,
    .timeoutCheck, .timeoutCheck, .timeoutCheck]

/- With a period between the passes the label is fair. -/
theorem fair_labels_of_run_silent :
    let t :=
      foldSteps (Observed.step (laterEnv 15000))
        (.start oneChunkNode) silentPasses
    t.labels = [⟨0, some 1, 75002⟩] ∧ t.FairLabels := by
  have hRun :
      Reaches (Observed.step (laterEnv 15000))
        (Observed.InTime (laterEnv 15000))
        (.start oneChunkNode)
        (foldSteps (Observed.step (laterEnv 15000))
          (.start oneChunkNode) silentPasses) :=
    reaches_foldSteps (by decide +kernel)
  exact ⟨by decide,
    fair_labels_of_run (by decide) rfl hRun⟩

/-
  With a tenth of a second between them the five passes label
  the peer after one silent period.
-/
theorem unfair_label :
    ¬ ∀ (env : Env) (n : Node) (t : Observed),
      (∀ i j, i ≤ j → env.clock i ≤ env.clock j) →
        n.config.peers.Nodup → n.config.download = [] →
          Reaches (Observed.step env) (fun _ _ => True)
              (.start n) t →
            t.FairLabels := by
  intro hClaim
  have hClock :
      ∀ i j, i ≤ j →
        (laterEnv 100).clock i ≤ (laterEnv 100).clock j := by
    intro i j hij
    simp only [laterEnv]
    split <;> split <;> omega
  have hFair :=
    hClaim (laterEnv 100) oneChunkNode
      (foldSteps (Observed.step (laterEnv 100))
        (.start oneChunkNode) silentPasses)
      hClock (by decide) rfl
      (reaches_free _ silentPasses)
  have hLabel :
      (foldSteps (Observed.step (laterEnv 100))
        (.start oneChunkNode) silentPasses).labels =
        [⟨0, some 1, 15402⟩] := by
    decide
  rcases hFair ⟨0, some 1, 15402⟩ (by rw [hLabel]; simp) with
    ⟨time, hHeard, hLate⟩
  cases hHeard
  revert hLate
  decide

end PeerNet
