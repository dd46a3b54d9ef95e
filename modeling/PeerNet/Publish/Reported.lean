import PeerNet.Receiver.Closed
import PeerNet.Receiver.Output

/-
  What is in the output file when a GET is reported.

  `finish_get` prints its `GOT` line behind the loop over the
  chunks, and nothing writes to a file between that line and
  the next one that is printed. So whenever a `GOT` line is
  the last that a process has printed, its output file is
  what the loop has written.

  Main declarations:
    * `Written`
    * `Reported`
    * `reported_step`
    * `reported_of_run`
-/

------------------------------------------------------------
-- Calls That Report Nothing
------------------------------------------------------------

namespace PeerNet

open Prog

/- No file is touched, and no `GOT` line is printed. -/
structure Unreported
    (n m : Node) : Prop where
  files : m.files = n.files
  trace : ∃ new, m.trace = n.trace ++ new ∧
    ∀ name, .got name ∉ new

instance : IsPreorder Node Unreported where
  refl n := ⟨rfl, [], (List.append_nil _).symm, nofun⟩
  trans n m k h h' := by
    rcases h.trace with ⟨new, hNew, hNone⟩
    rcases h'.trace with ⟨more, hMore, hNone'⟩
    refine ⟨h'.files.trans h.files, new ++ more, ?_, ?_⟩
    · rw [hMore, hNew, List.append_assoc]
    · intro name hMem
      rcases List.mem_append.mp hMem with hOld | hLast
      · exact hNone name hOld
      · exact hNone' name hLast

/- Neither the files nor the output are looked at. -/
theorem Unreported.of_eq
    {n m : Node}
    (hFiles : m.files = n.files)
    (hTrace : m.trace = n.trace) :
    Unreported n m :=
  ⟨hFiles, [], by rw [hTrace, List.append_nil], nofun⟩

abbrev Reportless
    {α : Type}
    (x : Prog α) : Prop :=
  Respects Unreported x

section

variable {α : Type}

theorem reportless_lift
    (x : Except Fault α) :
    Reportless (lift x) := by
  cases x with
  | ok a => exact Respects.pure a
  | error f => exact Respects.throw f

theorem reportless_onConfig
    (f : BtConfig → BtConfig) :
    Reportless (modify (Node.onConfig f) : Prog Unit) :=
  Respects.modify fun _ => .of_eq rfl rfl

theorem reportless_timeMillis
    (env : Env) :
    Reportless (timeMillis env) := by
  intro n
  rw [wp_timeMillis]
  exact .of_eq rfl rfl

theorem reportless_derefChunk
    (r : ChunkRef) :
    Reportless (derefChunk r) := by
  apply Respects.get_bind
  intro n
  cases n.config.chunk r with
  | none => exact Respects.throw _
  | some chunk => exact Respects.pure chunk

theorem reportless_packetNew
    (p : Packet)
    (a : Addr) :
    Reportless (packetNew p a) := by
  intro n
  apply wp_packetNew
  · exact fun _ => .of_eq rfl rfl
  · exact refl_of Unreported n
  · exact refl_of Unreported n

theorem reportless_timeoutPeer
    (env : Env)
    (curTime : Int)
    (cur : PeerRef) :
    Reportless (timeoutPeer env curTime cur) := by
  apply Respects.get_bind
  intro n
  apply Respects.ite _ (Respects.pure _)
  apply (reportless_onConfig _).bind
  intro _
  apply Respects.ite _ (Respects.pure _)
  apply (reportless_timeMillis env).bind
  intro now
  cases (n.config.peer cur).chunk with
  | none => exact Respects.throw _
  | some r =>
      apply (reportless_derefChunk r).bind
      intro chunk
      apply (reportless_lift _).bind
      exact fun _ => reportless_onConfig _

theorem reportless_timeoutCheck
    (env : Env) :
    Reportless (timeoutCheck env) := by
  apply Respects.get_bind
  intro n
  apply Respects.ite _ (Respects.pure _)
  apply (reportless_timeMillis env).bind
  intro curTime
  exact Respects.forM _ (reportless_timeoutPeer env curTime)

theorem reportless_isBad
    (env : Env)
    (peer : BtPeer) :
    Reportless (isBad env peer) := by
  unfold isBad
  apply Respects.ite _ (Respects.pure _)
  apply (reportless_timeMillis env).bind
  exact fun _ => Respects.pure _

theorem reportless_sendWhohas
    (env : Env) :
    Reportless (sendWhohas env) := by
  apply Respects.get_bind
  intro n
  apply Respects.ite (Respects.pure _)
  apply (reportless_timeMillis env).bind
  intro now
  apply Respects.ite (Respects.pure _)
  apply (reportless_timeMillis env).bind
  intro now
  apply (reportless_onConfig _).bind
  intro _
  apply Respects.ite (Respects.throw _)
  apply Respects.bind
  · apply Respects.forM
    intro p
    exact Respects.ite (reportless_packetNew _ _)
      (Respects.pure _)
  · exact fun _ => Respects.pure _

/- A GET is noted, but that is no `GOT` line. -/
theorem reportless_sendGet
    (env : Env)
    (dest : Addr)
    (r : ChunkRef) :
    Reportless (sendGet env dest r) := by
  apply Respects.get_bind
  intro n
  apply Respects.ite (Respects.pure _)
  apply (reportless_onConfig _).bind
  intro _
  cases peerWithAddr dest n.config with
  | none => exact Respects.throw _
  | some p =>
      apply (reportless_timeMillis env).bind
      intro now
      apply (reportless_onConfig _).bind
      intro _
      apply (reportless_derefChunk r).bind
      intro chunk
      apply Respects.bind
      · apply Respects.modify
        intro m
        refine ⟨rfl, [.sendGet r chunk], rfl, ?_⟩
        intro name hMem
        cases List.mem_singleton.mp hMem
      · intro _
        apply (reportless_packetNew _ _).bind
        exact fun _ => Respects.pure _

theorem reportless_scanPeers
    (env : Env)
    (r : ChunkRef)
    (peers : List PeerRef)
    (allBad : Bool) :
    Reportless (scanPeers env r peers allBad) := by
  induction peers generalizing allBad with
  | nil => exact Respects.pure _
  | cons p rest ih =>
      apply Respects.get_bind
      intro n
      apply (reportless_isBad env _).bind
      intro bad
      apply Respects.get_bind
      intro m
      apply Respects.ite (ih _)
      apply (reportless_isBad env _).bind
      intro bad
      apply Respects.ite (ih _)
      apply (reportless_sendGet env _ r).bind
      exact fun _ => Respects.pure _

theorem reportless_scanChunks
    (env : Env)
    (chunks : List ChunkRef) :
    Reportless (scanChunks env chunks) := by
  induction chunks with
  | nil => exact Respects.pure _
  | cons r rest ih =>
      apply Respects.get_bind
      intro n
      apply Respects.ite _ (Respects.pure _)
      apply (reportless_derefChunk r).bind
      intro chunk
      apply Respects.ite _ ih
      apply (reportless_scanPeers env r _ true).bind
      intro allBad
      apply Respects.ite _ ih
      exact (reportless_sendWhohas env).bind fun _ => ih

theorem reportless_getAllTheThingz
    (env : Env) :
    Reportless (getAllTheThingz env) :=
  Respects.get_bind fun _ => reportless_scanChunks env _

theorem reportless_ihaveLoop
    (p : PeerRef)
    (buf : Bytes)
    (count offset : Nat)
    (datalen : Int) :
    Reportless (ihaveLoop p buf count offset datalen) := by
  induction count generalizing offset datalen with
  | zero => exact Respects.pure _
  | succ count ih =>
      unfold ihaveLoop
      apply Respects.ite (Respects.pure _)
      apply Respects.ite (Respects.throw _)
      apply Respects.get_bind
      intro n
      dsimp only
      split
      · exact ih _ _
      · exact (reportless_onConfig _).bind fun _ => ih _ _

theorem reportless_processIhave
    (src : Addr)
    (packet : Packet) :
    Reportless (processIhave src packet) := by
  apply Respects.get_bind
  intro n
  apply Respects.ite (Respects.pure _)
  cases peerWithAddr src n.config with
  | none => exact Respects.throw _
  | some p =>
      apply (reportless_onConfig _).bind
      intro _
      cases packet.buf with
      | nil => exact Respects.throw _
      | cons numchunks rest =>
          exact reportless_ihaveLoop p _ _ _ _

theorem reportless_addChunks
    (env : Env)
    (fuel : Nat)
    (input buf : Bytes) :
    Reportless (addChunks env fuel input buf) := by
  induction fuel generalizing input buf with
  | zero => exact Respects.throw _
  | succ fuel ih =>
      unfold addChunks
      split
      · apply (reportless_lift _).bind
        intro buf
        apply Respects.bind
        · apply Respects.get_bind
          intro n
          apply (reportless_lift _).bind
          exact fun _ => reportless_onConfig _
        · exact fun _ => ih _ _
      · exact Respects.pure _

end

end PeerNet

------------------------------------------------------------
-- Reported GETs
------------------------------------------------------------

namespace PeerNet

open Prog

/-
  The loop over the chunks of `config` has run through, and
  `out` has in the output file what it has written.
-/
structure Written
    (env : Env)
    (config : BtConfig)
    (files out : Files)
    (name : Path) : Prop where
  name : name = config.getChunkFile
  written : ∃ pieces : List Bytes,
    pieces.length = config.numChunks.toNat ∧
      Wrote env config files 0 [] pieces ∧
        out.content config.outputFile =
          some pieces.flatten

/- If a `GOT` line was printed last, its file is there. -/
def Reported
    (env : Env)
    (n : Node) : Prop :=
  ∀ before config files name,
    n.trace =
        before ++ [.finishGet config files, .got name] →
      Written env config files n.files name

/- What a call leaves that reports no GET before it. -/
abbrev Reports
    (env : Env)
    {α : Type}
    (n : Node)
    (x : Prog α) : Prop :=
  wp x (fun _ m => Reported env m)
    (fun _ m => Reported env m) n

section

variable {env : Env} {n m : Node} {α : Type}

/- Something else was printed last. -/
theorem Reported.of_last
    {before : List Event}
    {e : Event}
    (hTrace : n.trace = before ++ [e])
    (hOther : ∀ name, e ≠ .got name) :
    Reported env n := by
  intro before' config files name hLast
  rw [hTrace, List.append_cons before'] at hLast
  have hSame := List.append_inj_right' hLast rfl
  exact absurd (List.singleton_inj.mp hSame) (hOther name)

theorem Unreported.reported
    (h : Unreported n m)
    (hBefore : Reported env n) :
    Reported env m := by
  rcases h.trace with ⟨new, hNew, hNone⟩
  rcases List.eq_nil_or_concat new with rfl | ⟨most, e, rfl⟩
  · intro before config files name hLast
    rw [List.append_nil] at hNew
    rw [hNew] at hLast
    rw [h.files]
    exact hBefore before config files name hLast
  · rw [List.concat_eq_append] at hNew hNone
    rw [← List.append_assoc] at hNew
    apply Reported.of_last hNew
    rintro name rfl
    exact hNone name
      (List.mem_append_right _ (List.mem_singleton_self _))

theorem Reportless.reports
    {x : Prog α}
    (hx : Reportless x)
    (hBefore : Reported env n) :
    Reports env n x :=
  Respects.wp hx fun _ h => h.reported hBefore

/- The loop prints nothing. -/
theorem finishGetLoop_trace
    (env : Env)
    (count : Nat)
    (i : Int) :
    Respects (fun n m => m.trace = n.trace)
      (finishGetLoop env count i) := by
  have hOrder :
      IsPreorder Node (fun n m => m.trace = n.trace) :=
    { refl := fun _ => rfl
      trans := fun _ _ _ h h' => h'.trans h }
  have hLift :
      ∀ {β : Type} (x : Except Fault β),
        Respects (fun n m : Node => m.trace = n.trace)
          (lift x) := by
    intro β x
    cases x with
    | ok a => exact Respects.pure a
    | error f => exact Respects.throw f
  have hChunk :
      ∀ i, Respects (fun n m : Node => m.trace = n.trace)
        (finishGetChunk env i) := by
    intro i
    apply Respects.get_bind
    intro n
    cases chunkWithId i n.config with
    | none => exact Respects.throw _
    | some next =>
        apply (hLift _).bind
        intro realId
        apply Respects.ite
        · apply (hLift _).bind
          intro bytes
          cases bytes with
          | none => exact Respects.pure _
          | some filechunk =>
              apply Respects.bind
              · exact Respects.modify fun _ => rfl
              · exact fun _ => Respects.pure _
        · apply Respects.bind
          · unfold writeToFile
            cases next.packets with
            | freed => exact Respects.throw _
            | live nodes =>
                apply (hLift _).bind
                intro bytes
                apply Respects.get_bind
                exact fun _ => Respects.modify fun _ => rfl
          · exact fun _ => Respects.pure _
  induction count generalizing i with
  | zero => exact Respects.pure _
  | succ count ih =>
      apply (hChunk i).bind
      exact fun go => Respects.ite (ih _) (Respects.pure _)

/- `finish_get` writes its file before it prints the line. -/
theorem finishGet_reports
    (env : Env)
    (n : Node) :
    Reports env n (finishGet env) := by
  have hEntered :
      ∀ {m : Node},
        m.trace =
            n.trace ++ [.finishGet n.config n.files] →
          Reported env m :=
    fun hTrace => .of_last hTrace nofun
  have hSilent :=
    finishGetLoop_trace env n.config.numChunks.toNat 0
      n.atLoop
  unfold Reports finishGet
  rw [wp_bind, wp_get, wp_bind, wp_modify, wp_ite]
  refine ⟨fun _ => ?_, fun _ => hEntered rfl⟩
  rw [wp_bind, wp_modify, wp_bind]
  unfold wp at hSilent
  cases hLoop :
      finishGetLoop env n.config.numChunks.toNat 0
        n.atLoop with
  | error f m =>
      rw [hLoop] at hSilent
      rw [wp, ← Node.atLoop, hLoop]
      exact hEntered hSilent
  | ok go m =>
      rw [hLoop] at hSilent
      rw [wp, ← Node.atLoop, hLoop]
      dsimp only
      cases go with
      | false => exact hEntered hSilent
      | true =>
          rcases (finishGetLoop_eq_iff rfl).mp hLoop with
            ⟨pieces, hCount, hWrote, rfl⟩
          have hWritten :
              Written env n.config n.files
                (n.files.write n.config.outputFile
                  ([] ++ pieces.flatten))
                n.config.getChunkFile :=
            { name := rfl
              written :=
                ⟨pieces, hCount, hWrote, by
                  simp [Files.write]⟩ }
          have hGot :
              ∀ {m : Node},
                m.files =
                    n.files.write n.config.outputFile
                      ([] ++ pieces.flatten) →
                  m.trace =
                      n.trace ++
                        [.finishGet n.config n.files] ++
                          [.got n.config.getChunkFile] →
                    Reported env m := by
            intro m hFiles hTrace before config files name hLast
            rw [hTrace, List.append_assoc] at hLast
            have hSame := List.append_inj_right' hLast rfl
            cases hSame
            rw [hFiles]
            exact hWritten
          unfold delReceiverList
          rw [if_pos rfl, wp_bind, wp_modify, wp_bind, wp_get,
            wp_ite]
          exact ⟨fun _ => hGot rfl rfl, fun _ => hGot rfl rfl⟩

/- A chunk is recorded behind the line that it is there. -/
theorem recordChunk_reports
    (env : Env)
    (r : ChunkRef)
    (hash : Hash)
    {before : List Event}
    {packets : BtPackets}
    (hTrace : n.trace = before ++ [.finishChunk r packets]) :
    Reports env n (recordChunk env r hash) := by
  have hSame :
      ∀ {m : Node}, m.trace = n.trace → Reported env m :=
    fun h => .of_last (h.trans hTrace) nofun
  unfold Reports recordChunk
  rw [wp_bind, wp_get, wp_bind, wp_modify, wp_bind, wp_get,
    wp_bind, wp_lift]
  refine ⟨fun id _ => ?_, fun f _ => hSame rfl⟩
  rw [wp_bind, wp_modify, wp_bind, wp_modify, wp_bind, wp_get,
    wp_ite]
  exact ⟨fun _ => finishGet_reports env _, fun _ => hSame rfl⟩

theorem finishChunk_reports
    (r : ChunkRef)
    (hBefore : Reported env n) :
    Reports env n (finishChunk env r) := by
  unfold Reports finishChunk
  rw [wp_bind, wp_derefChunk]
  refine ⟨fun _ => hBefore, fun chunk _ => ?_⟩
  rw [wp_bind, wp_modify]
  generalize chunk.packets = packets
  have hFinish :
      ∀ {m : Node},
        m.trace = n.trace ++ [.finishChunk r packets] →
          Reported env m :=
    fun hTrace => .of_last hTrace nofun
  cases chunk.peer with
  | none => exact hFinish rfl
  | some p =>
      dsimp only
      rw [wp_bind, wp_modify]
      cases packets with
      | freed => exact hFinish rfl
      | live nodes =>
          dsimp only
          rw [wp_bind, wp_lift]
          refine ⟨fun buffer _ => ?_, fun f _ => hFinish rfl⟩
          rw [wp_ite]
          refine ⟨fun _ => ?_, fun _ => .of_last rfl nofun⟩
          rw [wp_bind, wp_get, wp_ite]
          exact ⟨fun _ => recordChunk_reports env r _ rfl,
            fun _ => .of_last rfl nofun⟩

theorem addPacket_reports
    (r : ChunkRef)
    (packet : Packet)
    (hBefore : Reported env n) :
    Reports env n (addPacket env r packet) := by
  unfold Reports
  rw [addPacket_eq]
  dsimp only
  rw [wp_bind, wp_derefChunk]
  refine ⟨fun _ => hBefore, fun chunk _ => ?_⟩
  split
  · exact hBefore
  · next nodes _ =>
      rw [wp_ite]
      refine ⟨fun _ => hBefore, fun _ => ?_⟩
      rw [wp_bind, wp_modify, wp_ite]
      have hKept :
          Reported env
            (n.onConfig (BtConfig.setChunk r fun _ =>
              chunk.take nodes packet)) :=
        Unreported.reported (.of_eq rfl rfl) hBefore
      refine ⟨fun _ => ?_, fun _ => hKept⟩
      rw [wp_bind]
      exact finishChunk_reports r hKept

theorem processData_reports
    (src : Addr)
    (packet : Packet)
    (hBefore : Reported env n) :
    Reports env n (processData env src packet) := by
  unfold Reports processData
  rw [wp_bind, wp_get]
  dsimp only
  split
  · exact hBefore
  · next p _ =>
      split
      · exact hBefore
      · next r _ =>
          rw [wp_bind, wp_timeMillis, wp_bind, wp_modify,
            wp_ite]
          have hHeard : Reported env (n.heard env p) :=
            Unreported.reported (.of_eq rfl rfl) hBefore
          refine ⟨fun _ => hHeard, fun _ => ?_⟩
          rw [wp_bind]
          apply wp_mono (addPacket_reports r packet hHeard)
          · intro ackNum m hm
            rw [wp_bind]
            apply wp_sendAck
            exact Unreported.reported (.of_eq rfl rfl) hm
          · exact fun _ _ h => h

theorem processUserGet_reports
    (chunkfile outputfile : Path)
    (hBefore : Reported env n) :
    Reports env n
      (processUserGet env chunkfile outputfile) := by
  unfold Reports processUserGet
  rw [wp_bind, wp_get]
  cases n.files.content chunkfile with
  | none => exact hBefore
  | some text =>
      dsimp only
      rw [wp_bind, wp_modify, wp_bind]
      have hStart :
          Reported env (n.onConfig
            (BtConfig.startGet chunkfile outputfile)) :=
        Unreported.reported (.of_eq rfl rfl) hBefore
      apply wp_mono
        (Reportless.reports (reportless_addChunks env _ _ _) hStart)
      · intro _ m hm
        rw [wp_bind]
        apply wp_mono
          (Reportless.reports (reportless_sendWhohas env) hm)
        · intro _ k hk
          rw [wp_bind, wp_get, wp_ite]
          exact ⟨fun _ => finishGet_reports env k,
            fun _ => hk⟩
        · exact fun _ _ h => h
      · exact fun _ _ h => h

/- A call that ends at a fault has printed what it has. -/
theorem Reports.exec
    {x : Prog α}
    (hx : Reports env n x)
    (hBefore : Reported env n) :
    Reported env (n.exec x) :=
  Node.exec_of_wp hx fun _ => hBefore

/- Every event keeps it, whatever state it comes in. -/
theorem reported_step
    (hBefore : Reported env n)
    (e : NodeEvent) :
    Reported env (n.step env e) := by
  have hSilent :
      ∀ {β : Type} {x : Prog β}, Reportless x →
        Reported env (n.exec x) :=
    fun hx => (Reportless.reports hx hBefore).exec hBefore
  by_cases hReceives : e.receives
  · cases e with
    | userGet chunkfile outputfile =>
        exact (processUserGet_reports chunkfile outputfile
          hBefore).exec hBefore
    | timeoutCheck => exact hSilent (reportless_timeoutCheck env)
    | getAllTheThingz =>
        exact hSilent (reportless_getAllTheThingz env)
    | ihave src packet =>
        unfold Node.step handle
        rw [Node.exec_discard]
        exact hSilent (reportless_processIhave src packet)
    | data src packet =>
        unfold Node.step handle
        rw [Node.exec_discard]
        exact (processData_reports src packet hBefore).exec
          hBefore
    | peerCc => exact hReceives.elim
    | get src packet => exact hReceives.elim
    | ack src packet => exact hReceives.elim
  · rcases step_serves env n hReceives with
      ⟨m, ⟨_, _, _, rfl⟩, hEnd | ⟨f, hEnd⟩⟩
    · rw [hEnd]
      exact Unreported.reported (.of_eq rfl rfl) hBefore
    · rw [hEnd]
      exact Unreported.reported (.of_eq rfl rfl) hBefore

/- And so it is in every state of a run. -/
theorem reported_of_run
    {allow : Node → NodeEvent → Prop}
    {n₀ : Node}
    (hStart : n₀.trace = [])
    (hRun : Runs.Reaches (Node.step env) allow n₀ n) :
    Reported env n := by
  apply hRun.invariant
  · intro before config files name hTrace
    rw [hStart] at hTrace
    cases before <;> cases hTrace
  · exact fun m e hBefore _ => reported_step hBefore e

end

end PeerNet
