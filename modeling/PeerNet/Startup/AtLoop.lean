import Mathlib.Data.List.Find
import PeerNet.Receiver.Links
import PeerNet.Startup.CommandLine

/-
  A peer that has started.

  Whatever the command line and the files are, a peer that
  gets there is `AtLoop`, and its process is one that
  every result on runs starts from if no two entries of its
  peer list have the same address. Nothing checks the latter.
  A command line and a peer list that are written as the
  usage message says do get it there.

  Main declarations:
    * `peerMain_iff`
    * `AtLoop`
    * `configured_iff_of_main`
    * `started_of_written`
    * `overflow_of_main`
-/

------------------------------------------------------------
-- The Steps of the Start
------------------------------------------------------------

namespace PeerNet

open Scanf Getopt

/- The process that a start with these peers ends in. -/
def startedProcess
    (h : Host)
    (c : BtConfig)
    (p : PeerRef) : PeerProcess :=
  .start
    { config := c.resetPeers
      files := h.files
      queue := []
      reads := 1
      trace := []
      fault := none }
    (.init c.identity ⟨loopback, (c.peer p).addr.sinPort⟩
      h.router)

/- The identity is one of the list, and the files are named. -/
structure Identified
    (c : BtConfig)
    (p : PeerRef) : Prop where
  identity : c.identity ≠ 0
  listed : btPeerInfo c.identity c = some p
  chunkFile : c.chunkFile ≠ []
  hasChunkFile : c.hasChunkFile ≠ []

section

variable {h : Host} {args : List Bytes} {s : PeerProcess}
variable {c c' : CommandLine}

/- The bytes of a port, exchanged twice. -/
theorem htons_htons
    (x : UInt16) :
    htons (htons x) = x := by
  apply UInt16.toBitVec_inj.mp
  unfold htons
  simp only [UInt16.toBitVec_or, UInt16.toBitVec_shiftLeft,
    UInt16.toBitVec_shiftRight]
  apply BitVec.eq_of_getLsbD_eq
  intro i hi
  -- a bit of the low byte goes up and comes down again
  by_cases hLow : i < 8
  · have hUp : 8 + i < 16 := by omega
    have hOut : x.toBitVec.getLsbD (8 + (8 + i)) = false :=
      BitVec.getLsbD_of_ge _ _ (by omega)
    simp [hLow, hUp, hOut, BitVec.getLsbD_eq_getElem hi]
  · have hBack : 8 + (i - 8) = i := by omega
    have hDown : i - 8 < 8 := by omega
    have hOut : ¬ 8 + i < 16 := by omega
    have hEnd : x.toBitVec.getLsbD (8 + (8 + i)) = false :=
      BitVec.getLsbD_of_ge _ _ (by omega)
    simp [hLow, hi, hBack, hDown, hOut, hEnd]

theorem checkIdentity_iff :
    checkIdentity c = .ok c' ↔
      ∃ p, Identified c.config p ∧
        c' = { c with
          myport := htons (c.config.peer p).addr.sinPort } := by
  unfold checkIdentity
  constructor
  · intro hCheck
    split at hCheck
    · cases hCheck
    next hIdentity =>
    split at hCheck
    · cases hCheck
    next p hListed =>
    split at hCheck
    · cases hCheck
    next hNames =>
    simp only [not_or, List.length_eq_zero_iff] at hNames
    exact ⟨p, ⟨hIdentity, hListed, hNames.1, hNames.2⟩,
      (Except.ok.inj hCheck).symm⟩
  · rintro ⟨p, hChecked, rfl⟩
    have hNames :
        ¬ (c.config.chunkFile.length = 0 ∨
          c.config.hasChunkFile.length = 0) := by
      simp [hChecked.chunkFile, hChecked.hasChunkFile]
    rw [if_neg hChecked.identity, hChecked.listed]
    dsimp only
    rw [if_neg hNames]

theorem checkIdentity_fits
    (c : CommandLine) :
    checkIdentity c ≠ .error .overflow := by
  unfold checkIdentity
  split
  · simp
  split
  · simp
  split
  · simp
  · simp

/- A start that ends in the loop. -/
theorem peerMain_iff :
    peerMain h args = .ok s ↔
      ∃ c config p,
        parseOptions args (testingConfig h (btInit h)) =
            .ok c ∧
          btParsePeerList h c.peerListFile c.config =
              .ok config ∧
            Identified config p ∧
              s = startedProcess h config p := by
  unfold peerMain btParseCommandLine
  constructor
  · intro hMain
    cases hParse :
        parseOptions args (testingConfig h (btInit h)) with
    | error stop =>
        rw [hParse] at hMain
        cases hMain
    | ok c =>
    cases hPeers :
        btParsePeerList h c.peerListFile c.config with
    | error stop =>
        simp only [hParse, bind, Except.bind, hPeers] at hMain
        cases hMain
    | ok config =>
    cases hCheck :
        checkIdentity { c with config := config } with
    | error stop =>
        simp only [hParse, bind, Except.bind, hPeers, hCheck]
          at hMain
        cases hMain
    | ok c' =>
        simp only [hParse, bind, Except.bind, hPeers, hCheck]
          at hMain
        rcases checkIdentity_iff.mp hCheck with
          ⟨p, hChecked, rfl⟩
        refine ⟨c, config, p, rfl, hPeers, hChecked, ?_⟩
        rw [← Except.ok.inj hMain]
        dsimp only
        rw [htons_htons]
        rfl
  · rintro ⟨c, config, p, hParse, hPeers, hChecked, rfl⟩
    have hCheck :=
      (@checkIdentity_iff { c with config := config } _).mpr
        ⟨p, hChecked, rfl⟩
    simp only [hParse, bind, Except.bind, hPeers, hCheck]
    rw [htons_htons]
    rfl

end

end PeerNet

------------------------------------------------------------
-- Started Peers
------------------------------------------------------------

namespace PeerNet

open Scanf Getopt

/-
  A peer at the head of its loop: who it is, where it is and
  what it was told to use.
-/
structure AtLoop
    (h : Host)
    (args : List Bytes)
    (s : PeerProcess) : Prop where
  start : s = .start s.node s.spiffy
  identity : s.node.config.identity ≠ 0
  own : ∃ p,
    btPeerInfo s.node.config.identity s.node.config = some p ∧
      s.spiffy =
        .init s.node.config.identity
          ⟨loopback, (s.node.config.peer p).addr.sinPort⟩
          h.router
  chunkFile : s.node.config.chunkFile ≠ [] ∧
    s.node.config.chunkFile.length < btFilenameLen
  hasChunkFile : s.node.config.hasChunkFile ≠ [] ∧
    s.node.config.hasChunkFile.length < btFilenameLen
  reset : ∀ p ∈ s.node.config.peers,
    s.node.config.peer p =
      BtConfig.resetPeer (s.node.config.peer p)
  listed : ∃ c text,
    parseOptions args (testingConfig h (btInit h)) = .ok c ∧
      h.files.content c.peerListFile = some text ∧
        s.node.config.peers.length =
          (Fgets.lines (btFilenameLen - 1) text).countP
            (fun line => line.head? != some 35)

section

variable {h : Host} {args : List Bytes} {s : PeerProcess}
variable {c : BtConfig} {p : PeerRef}

theorem resetPeers_entries
    (c : BtConfig) :
    c.resetPeers.entries = c.entries := by
  unfold BtConfig.entries
  rw [BtConfig.resetPeers_peers]
  refine List.map_congr_left ?_
  intro p hp
  rw [BtConfig.resetPeers_peer, if_pos hp]
  rfl

theorem resetPeers_info
    (id : Int)
    (c : BtConfig) :
    btPeerInfo id c.resetPeers = btPeerInfo id c := by
  unfold btPeerInfo
  rw [BtConfig.resetPeers_peers]
  apply List.find?_congr
  intro p hp
  rw [BtConfig.resetPeers_peer, if_pos hp]
  rfl

/- The configuration that the peer list is read into. -/
theorem CommandLine.Untouched.numbered
    {c : CommandLine}
    (hClean : c.Untouched) :
    c.config.Numbered where
  nodup := by
    rw [hClean.peers]
    exact List.nodup_nil
  small := by
    rw [hClean.peers]
    simp

theorem CommandLine.Untouched.entries
    {c : CommandLine}
    (hClean : c.Untouched) :
    c.config.entries = [] := by
  unfold BtConfig.entries
  rw [hClean.peers]
  rfl

/- What the peer list gives. -/
theorem btParsePeerList_ok
    {path : Path}
    {c' : BtConfig}
    (hPeers : btParsePeerList h path c = .ok c') :
    ∃ text es,
      h.files.content path = some text ∧
        peerEntries h (Fgets.lines (btFilenameLen - 1) text)
            h.stack = .ok es ∧
          c' = c.pushAll es := by
  unfold btParsePeerList at hPeers
  split at hPeers
  · cases hPeers
  · next text hFile =>
      rw [peerListLoop_eq] at hPeers
      cases hEntries :
          peerEntries h
            (Fgets.lines (btFilenameLen - 1) text)
            h.stack with
      | error stop =>
          rw [hEntries] at hPeers
          cases hPeers
      | ok es =>
          rw [hEntries] at hPeers
          exact ⟨text, es, hFile, hEntries,
            (Except.ok.inj hPeers).symm⟩

/- A process that starts is `Configured`, but for one thing. -/
theorem configured_iff_nodup
    (hUnused : c.Unused)
    (hNodup : c.peers.Nodup)
    (p : PeerRef) :
    Configured (startedProcess h c p).node ↔
      (c.entries.map PeerEntry.addr).Nodup := by
  have hSame :
      DistinctAddrs c.resetPeers ↔
        (c.entries.map PeerEntry.addr).Nodup := by
    rw [← resetPeers_entries]
    exact BtConfig.distinctAddrs_iff hNodup
  have hReset :
      ∀ q ∈ c.peers,
        c.resetPeers.peer q =
          BtConfig.resetPeer (c.peer q) :=
    fun q hq => if_pos hq
  constructor
  · exact fun hConfigured => hSame.mp hConfigured.distinct
  · intro hDistinct
    exact
      { running := rfl
        trace := rfl
        queue := rfl
        distinct := hSame.mpr hDistinct
        download := hUnused.download
        upload := hUnused.upload
        empty := hUnused.empty
        idle := fun q hq =>
          congrArg BtPeer.downloading (hReset q hq)
        free := fun q hq =>
          congrArg BtPeer.chunk (hReset q hq)
        silent := fun q hq =>
          congrArg BtPeer.lastResponse (hReset q hq)
        curDownload := hUnused.curDownload }

end

end PeerNet

------------------------------------------------------------
-- Written Command Lines and Files
------------------------------------------------------------

namespace PeerNet

open Scanf Getopt

/- The configuration after some options. -/
def Host.settled
    (h : Host)
    (arguments : List Argument) : CommandLine :=
  (testingConfig h (btInit h)).withSettings
    (arguments.filterMap Argument.setting)

/-
  A command line and a peer list as they should be: the host
  names resolve, the identity is not zero and is listed, and
  the two chunk files are named.
-/
structure WellWritten
    (h : Host)
    (arguments : List Argument)
    (lines : List MapLine) : Prop where
  plain :
    ∀ argument ∈ arguments,
      argument.Plain (kindOf btOptstring)
  accepted :
    ∀ setting ∈ arguments.filterMap Argument.setting,
      Setting.Accepted setting
  file :
    h.files.content (h.settled arguments).peerListFile =
      some (printMap lines)
  whole : ∀ line ∈ lines, line.Plain
  fit : ∀ line ∈ lines, line.text.length < btFilenameLen - 1
  hosts : ∀ l ∈ MapLine.peers lines h.stack,
    (h.gethostbyname l.hostname).isSome
  identity : (h.settled arguments).config.identity ≠ 0
  listed : ∃ l ∈ MapLine.peers lines h.stack,
    toShort l.nodeid =
      (h.settled arguments).config.identity
  chunkFile : (h.settled arguments).config.chunkFile ≠ []
  hasChunkFile :
    (h.settled arguments).config.hasChunkFile ≠ []

/- What the options set is the same. -/
structure SameSettings
    (c c' : BtConfig) : Prop where
  chunkFile : c'.chunkFile = c.chunkFile
  hasChunkFile : c'.hasChunkFile = c.hasChunkFile
  outputFile : c'.outputFile = c.outputFile
  maxConn : c'.maxConn = c.maxConn
  identity : c'.identity = c.identity

section

variable {h : Host} {arguments : List Argument}
variable {lines : List MapLine}

theorem SameSettings.pushAll
    (c : BtConfig)
    (es : List PeerEntry) :
    SameSettings c (c.pushAll es) := by
  induction es generalizing c with
  | nil => exact ⟨rfl, rfl, rfl, rfl, rfl⟩
  | cons entry es ih =>
      have hRest := ih (c.push entry)
      exact ⟨hRest.chunkFile, hRest.hasChunkFile,
        hRest.outputFile, hRest.maxConn, hRest.identity⟩

/- The start that is written gets to the loop. -/
theorem peerMain_written
    (hWritten : WellWritten h arguments lines) :
    ∃ config p,
      peerMain h (arguments.flatMap Argument.args) =
          .ok (startedProcess h config p) ∧
        config.Unused ∧ config.peers.Nodup ∧
          SameSettings (h.settled arguments).config config ∧
            config.entries =
              ((MapLine.peers lines h.stack).map
                h.entry).reverse := by
  have hParse :
      parseOptions (arguments.flatMap Argument.args)
          (testingConfig h (btInit h)) =
        .ok (h.settled arguments) :=
    parseOptions_written hWritten.plain hWritten.accepted _
  have hClean :=
    parseOptions_untouched (btInit_untouched h) hParse
  have hPeers := btParsePeerList_printed hWritten.whole
    hWritten.fit hWritten.hosts hWritten.file
    (h.settled arguments).config
  generalize (MapLine.peers lines h.stack).map h.entry = es,
    hEs : (MapLine.peers lines h.stack).map h.entry = es
    at hPeers ⊢
  have hEntries := BtConfig.entries_pushAll hClean.numbered es
  have hSame :=
    SameSettings.pushAll (h.settled arguments).config es
  rw [hClean.entries, List.append_nil] at hEntries
  rcases hWritten.listed with ⟨l, hl, hOwn⟩
  have hEntry :
      h.entry l ∈
        ((h.settled arguments).config.pushAll es).entries := by
    rw [hEntries, ← hEs]
    exact List.mem_reverse.mpr (List.mem_map_of_mem hl)
  rcases List.mem_map.mp hEntry with ⟨q, hq, hSameEntry⟩
  have hFound :
      (btPeerInfo (h.settled arguments).config.identity
        ((h.settled arguments).config.pushAll
          es)).isSome := by
    rw [btPeerInfo, List.find?_isSome, ← hOwn]
    exact ⟨q, hq, decide_eq_true
      (congrArg PeerEntry.id hSameEntry)⟩
  rcases Option.isSome_iff_exists.mp hFound with ⟨p, hListed⟩
  have hChecked :
      Identified ((h.settled arguments).config.pushAll es) p := by
    constructor
    · rw [hSame.identity]
      exact hWritten.identity
    · rw [hSame.identity]
      exact hListed
    · rw [hSame.chunkFile]
      exact hWritten.chunkFile
    · rw [hSame.hasChunkFile]
      exact hWritten.hasChunkFile
  exact ⟨_, p,
    peerMain_iff.mpr ⟨_, _, p, hParse, hPeers, hChecked, rfl⟩,
    hClean.toUnused.pushAll es,
    (hClean.numbered.pushAll es).nodup, hSame, hEntries⟩

end

/- `-p n -cH -f F -i1` -/
def startArguments : List Argument :=
  [.apart 112 [110], .joined 99 [72], .apart 102 [70],
    .joined 105 [49]]

def startLines : List MapLine :=
  [.comment [], .peer 1 [97] 7]

/- A host with one name, and with some lines in a file. -/
def startHost
    (lines : List MapLine) : Host where
  files :=
    { content := fun path =>
        if path = [110] then some (printMap lines) else none
      writable := fun _ => true }
  gethostbyname := fun name =>
    if name = [97] then some loopback else none
  heap := onePeerConfig.peer
  stack := ⟨0, [], 0⟩
  router := none
  testing := false

/- One peer, and what may stand behind it. -/
theorem startHost_written
    {lines : List MapLine}
    (hLines : lines = startLines ∨
      lines = [.peer 1 [97] 7, .blank []]) :
    WellWritten (startHost lines) startArguments lines := by
  have hIdentity :
      ((startHost lines).settled
        startArguments).config.identity = 1 := by
    change toShort (atoi [49]) = 1
    decide
  have hPeers :
      ∀ l ∈ MapLine.peers lines (startHost lines).stack,
        l = ⟨1, [97], 7⟩ := by
    rcases hLines with rfl | rfl
    · simp [startLines, MapLine.peers]
    · simp [MapLine.peers]
  have hSome :
      (⟨1, [97], 7⟩ : PeerLine) ∈
        MapLine.peers lines (startHost lines).stack := by
    rcases hLines with rfl | rfl
    · exact List.mem_cons_self
    · exact List.mem_cons_self
  have hPeer : (MapLine.peer 1 [97] 7).Plain := by
    refine ⟨by decide, by decide, ⟨by decide, ?_⟩, by decide⟩
    intro c hc
    rw [List.mem_singleton.mp hc]
    decide
  constructor
  · simp [startArguments, Argument.Plain]
    decide
  · intro setting hIn
    have hCases :
        setting = (112, [110]) ∨ setting = (99, [72]) ∨
          setting = (102, [70]) ∨ setting = (105, [49]) := by
      simpa [startArguments, Argument.setting] using hIn
    rcases hCases with rfl | rfl | rfl | rfl
    · exact ⟨by decide, by decide⟩
    · exact ⟨by decide, by decide⟩
    · exact ⟨by decide, by decide⟩
    · exact ⟨by decide, by decide⟩
  · rfl
  · have hComment : (MapLine.comment []).Plain :=
      List.not_mem_nil
    have hBlank : (MapLine.blank []).Plain :=
      ⟨List.not_mem_nil, by simp⟩
    rcases hLines with rfl | rfl
    · simp only [startLines, List.forall_mem_cons]
      exact ⟨hComment, hPeer, by simp⟩
    · simp only [List.forall_mem_cons]
      exact ⟨hPeer, hBlank, by simp⟩
  · rcases hLines with rfl | rfl
    · simp [startLines, MapLine.text]
      decide
    · simp [MapLine.text]
      decide
  · intro l hl
    rw [hPeers l hl]
    rfl
  · rw [hIdentity]
    decide
  · refine ⟨_, hSome, ?_⟩
    rw [hIdentity]
    decide
  · exact List.cons_ne_nil 70 []
  · exact List.cons_ne_nil 72 []

end PeerNet

------------------------------------------------------------
-- Results
------------------------------------------------------------

namespace PeerNet

open Scanf Getopt

section

variable {h : Host} {args : List Bytes} {s : PeerProcess}
variable {arguments : List Argument} {lines : List MapLine}

/-
  Whatever it was started with, a peer in its loop is ready,
  and it is configured as the runs need it unless two of its
  entries have one address.
-/
theorem configured_iff_of_main
    (hMain : peerMain h args = .ok s) :
    AtLoop h args s ∧
      (Configured s.node ↔
        (s.node.config.entries.map
          PeerEntry.addr).Nodup) := by
  rcases peerMain_iff.mp hMain with
    ⟨cl, config, p, hParse, hPeers, hChecked, rfl⟩
  have hClean :=
    parseOptions_untouched (btInit_untouched h) hParse
  rcases btParsePeerList_ok hPeers with
    ⟨text, es, hFile, hEntries, rfl⟩
  have hUnused := hClean.toUnused.pushAll es
  have hNodup := (hClean.numbered.pushAll es).nodup
  generalize hConfig : cl.config.pushAll es = config at *
  have hReset :
      ∀ q ∈ config.peers,
        config.resetPeers.peer q =
          BtConfig.resetPeer (config.peer q) :=
    fun q hq => if_pos hq
  have hOwn : p ∈ config.peers :=
    List.mem_of_find?_eq_some hChecked.listed
  constructor
  · refine
      { start := rfl
        identity := hChecked.identity
        own := ⟨p, ?_, ?_⟩
        chunkFile := ⟨hChecked.chunkFile, hUnused.chunkFile⟩
        hasChunkFile :=
          ⟨hChecked.hasChunkFile, hUnused.hasChunkFile⟩
        reset := ?_
        listed := ⟨cl, text, hParse, hFile, ?_⟩ }
    · exact (resetPeers_info _ config).trans hChecked.listed
    · have hAddr :=
        congrArg BtPeer.addr (hReset p hOwn)
      change Spiffy.init config.identity
          ⟨loopback, (config.peer p).addr.sinPort⟩ h.router =
        Spiffy.init config.identity
          ⟨loopback, (config.resetPeers.peer p).addr.sinPort⟩
          h.router
      rw [hAddr]
      rfl
    · intro q hq
      change config.resetPeers.peer q =
        BtConfig.resetPeer (config.resetPeers.peer q)
      rw [hReset q hq]
      rfl
    · have hLength :
          config.peers.length = config.entries.length :=
        (List.length_map _).symm
      have hList := BtConfig.entries_pushAll hClean.numbered es
      rw [hConfig] at hList
      change config.peers.length = _
      rw [hLength, hList, hClean.entries, List.append_nil,
        List.length_reverse, length_peerEntries hEntries]
  · have hEntriesEq :
        (startedProcess h config p).node.config.entries =
          config.entries :=
      resetPeers_entries config
    rw [hEntriesEq]
    exact configured_iff_nodup hUnused hNodup p

theorem configured_iff_of_main_startHost :
    ∃ s,
      AtLoop (startHost startLines)
          (startArguments.flatMap Argument.args) s ∧
        (Configured s.node ↔
          (s.node.config.entries.map
            PeerEntry.addr).Nodup) := by
  rcases peerMain_written (startHost_written (.inl rfl)) with
    ⟨config, p, hMain, -⟩
  exact ⟨_, configured_iff_of_main hMain⟩

/-
  Such a peer gets to its loop. It has the settings, and it
  has the lines of the file as its entries, from the last to
  the first.
-/
theorem started_of_written
    (hWritten : WellWritten h arguments lines) :
    ∃ s,
      peerMain h (arguments.flatMap Argument.args) = .ok s ∧
        SameSettings (h.settled arguments).config
            s.node.config ∧
          s.node.config.entries =
              ((MapLine.peers lines h.stack).map
                h.entry).reverse ∧
            (Configured s.node ↔
              ((MapLine.peers lines h.stack).map fun l =>
                (h.entry l).addr).Nodup) := by
  rcases peerMain_written hWritten with
    ⟨config, p, hMain, hUnused, hNodup, hSame, hEntries⟩
  refine ⟨startedProcess h config p, hMain, ?_, ?_, ?_⟩
  · exact ⟨hSame.chunkFile, hSame.hasChunkFile,
      hSame.outputFile, hSame.maxConn, hSame.identity⟩
  · exact (resetPeers_entries config).trans hEntries
  · rw [configured_iff_nodup hUnused hNodup p, hEntries,
      List.map_reverse, List.nodup_reverse, List.map_map]
    rfl

theorem started_of_written_startHost :
    ∃ s,
      peerMain (startHost startLines)
          (startArguments.flatMap Argument.args) = .ok s ∧
        SameSettings
            ((startHost startLines).settled
              startArguments).config s.node.config ∧
          s.node.config.entries =
              ((MapLine.peers startLines ⟨0, [], 0⟩).map
                (startHost startLines).entry).reverse ∧
            (Configured s.node ↔
              ((MapLine.peers startLines ⟨0, [], 0⟩).map
                fun l =>
                  ((startHost startLines).entry
                    l).addr).Nodup) :=
  started_of_written (startHost_written (.inl rfl))

/-
  An argument of 255 bytes or more is the only thing that can
  overflow an array before the loop.
-/
theorem overflow_of_main
    (hMain : peerMain h args = .error .overflow) :
    ∃ arg ∈ args, btFilenameLen ≤ arg.length := by
  unfold peerMain btParseCommandLine at hMain
  cases hParse :
      parseOptions args (testingConfig h (btInit h)) with
  | error stop =>
      rw [hParse] at hMain
      cases hMain
      exact parseOptions_overflow hParse
  | ok cl =>
  have hPeersFit := btParsePeerList_fits h cl.peerListFile cl.config
  cases hPeers :
      btParsePeerList h cl.peerListFile cl.config with
  | error stop =>
      simp only [hParse, bind, Except.bind, hPeers] at hMain
      cases hMain
      exact absurd hPeers hPeersFit
  | ok config =>
  have hCheckFits :=
    checkIdentity_fits { cl with config := config }
  cases hCheck :
      checkIdentity { cl with config := config } with
  | error stop =>
      simp only [hParse, bind, Except.bind, hPeers, hCheck]
        at hMain
      cases hMain
      exact absurd hCheck hCheckFits
  | ok cl' =>
      simp only [hParse, bind, Except.bind, hPeers, hCheck]
        at hMain
      cases hMain

theorem overflow_of_main_startHost :
    ∃ arg ∈ ([[45, 112], List.replicate 255 97] : List Bytes),
      btFilenameLen ≤ arg.length := by
  have hLong :
      ¬ (List.replicate 255 (97 : UInt8)).length <
        btFilenameLen := by
    rw [List.length_replicate]
    exact Nat.lt_irrefl 255
  have hParse :
      parseOptions [[45, 112], List.replicate 255 97]
          (testingConfig (startHost startLines)
            (btInit (startHost startLines))) =
        .error .overflow := by
    unfold parseOptions
    rw [options_apart (by decide) (by decide),
      List.foldlM_cons, applyOption, if_neg (by decide),
      if_pos rfl, strcpy, if_neg hLong]
    rfl
  have hMain :
      peerMain (startHost startLines)
          [[45, 112], List.replicate 255 97] =
        .error .overflow := by
    unfold peerMain btParseCommandLine
    rw [hParse]
    rfl
  exact overflow_of_main hMain

/-
  A blank line behind the line of a peer lists the peer once
  more, so the process is not configured as the runs need it.
-/
theorem not_configured_of_blank
    {cl : CommandLine}
    {text first blank : Bytes}
    {before comments after : List Bytes}
    (hMain : peerMain h args = .ok s)
    (hParse :
      parseOptions args (testingConfig h (btInit h)) = .ok cl)
    (hFile : h.files.content cl.peerListFile = some text)
    (hLines :
      Fgets.lines (btFilenameLen - 1) text =
        before ++ first :: (comments ++ blank :: after))
    (hFirst : first.head? ≠ some 35)
    (hComments : ∀ line ∈ comments, line.head? = some 35)
    (hBlank : ∀ c ∈ blank, isSpace c = true) :
    ¬ Configured s.node := by
  rcases peerMain_iff.mp hMain with
    ⟨cl', config, p, hParse', hPeers, hChecked, rfl⟩
  have hSameLine : cl' = cl :=
    Except.ok.inj (hParse'.symm.trans hParse)
  subst hSameLine
  have hClean :=
    parseOptions_untouched (btInit_untouched h) hParse
  rcases btParsePeerList_ok hPeers with
    ⟨text', es, hFile', hEntries, rfl⟩
  rw [← Option.some.inj (hFile.symm.trans hFile'), hLines]
    at hEntries
  rcases peerEntries_repeated hEntries hFirst hComments
      hBlank with
    ⟨es₁, entry, es₂, rfl⟩
  have hUnused := hClean.toUnused.pushAll
    (es₁ ++ entry :: entry :: es₂)
  have hNumbered := hClean.numbered.pushAll
    (es₁ ++ entry :: entry :: es₂)
  rw [configured_iff_nodup hUnused hNumbered.nodup p,
    BtConfig.entries_pushAll hClean.numbered]
  intro hNodup
  -- the two entries stand next to each other
  simp [List.nodup_append] at hNodup

/- The line of a peer, and a blank one. -/
theorem not_configured_of_blank_startHost :
    ∃ s,
      peerMain (startHost [.peer 1 [97] 7, .blank []])
          (startArguments.flatMap Argument.args) = .ok s ∧
        ¬ Configured s.node := by
  have hWritten := startHost_written (.inr rfl)
  rcases peerMain_written hWritten with ⟨config, p, hMain, -⟩
  have hParse :
      parseOptions (startArguments.flatMap Argument.args)
          (testingConfig _ (btInit _)) =
        .ok ((startHost [.peer 1 [97] 7, .blank []]).settled
          startArguments) :=
    parseOptions_written hWritten.plain hWritten.accepted _
  have hLines := lines_printMap hWritten.whole hWritten.fit
  have hBlank : ∀ c ∈ ([10] : Bytes), isSpace c = true := by
    intro c hc
    rw [List.mem_singleton.mp hc]
    decide
  exact ⟨_, hMain,
    @not_configured_of_blank _ _ _ _ _
      [49, 32, 97, 32, 55, 10] [10] [] [] [] hMain hParse
      hWritten.file hLines (by decide) (by simp) hBlank⟩

end

end PeerNet
