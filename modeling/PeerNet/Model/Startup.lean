import PeerNet.Lib.Fgets
import PeerNet.Lib.Getopt
import PeerNet.Model.PeerRun

/-
  How a peer starts: `main`, with `bt_init` and
  `bt_parse_command_line`, up to the loop of `peer_run`.

  The start may end the process: by `exit`, by an `assert`
  that fails, or by a `strcpy` behind the end of an array.
  The three scan results of a line of the peer list live in
  variables that keep what earlier lines left in them.

  An entry of the peer list has the reference that counts
  the entries before it. `sin_port` is as it lies in memory.
  `malloc`, `socket` and `bind` succeed, and what is printed
  is left out.

  Key definitions include:
    * `Host`
    * `applyOption`
    * `btParsePeerList`
    * `btParseCommandLine`
    * `peerMain`
-/

------------------------------------------------------------
-- The Host
------------------------------------------------------------

namespace PeerNet

open Scanf

/- How a start ends that does not reach the loop. -/
inductive Stop where
  | exit (status : Int)
  | abort
  | overflow
deriving DecidableEq

/- The variables of `bt_parse_peer_list`. -/
structure PeerLine where
  nodeid : Int
  hostname : Bytes
  port : Int
deriving DecidableEq

/-
  What the process is started on: its files, the names it
  can resolve, what its memory holds, the router that
  `SPIFFY_ROUTER` names, and was it built with `TESTING`?
-/
structure Host where
  files : Files
  gethostbyname : Bytes → Option UInt32
  heap : PeerRef → BtPeer
  stack : PeerLine
  router : Option Addr
  testing : Bool

/-
  The parts of `bt_config_t` that the start reads or writes.
  Nothing reads `peer_list_file` and `myport` later.
-/
structure CommandLine where
  config : BtConfig
  peerListFile : Path
  myport : UInt16

/- `htons` and `ntohs` on a little-endian machine. -/
def htons
    (x : UInt16) : UInt16 :=
  (x <<< 8) ||| (x >>> 8)

/- `inet_aton("127.0.0.1")`. -/
def loopback : UInt32 :=
  loadWord [127, 0, 0, 1]

/- `BT_FILENAME_LEN`. -/
abbrev btFilenameLen : Nat := 255

/- `strcpy` to an array of `BT_FILENAME_LEN` bytes. -/
def strcpy
    (arg : Bytes) : Except Stop Path :=
  if arg.length < btFilenameLen then
    .ok arg
  else
    .error .overflow

end PeerNet

------------------------------------------------------------
-- The Defaults
------------------------------------------------------------

namespace PeerNet

/- `"output.dat"`. -/
def outputDat : Path :=
  [111, 117, 116, 112, 117, 116, 46, 100, 97, 116]

/- `"nodes.map"`. -/
def nodesMap : Path :=
  [110, 111, 100, 101, 115, 46, 109, 97, 112]

/- `"chunkfile"`. -/
def chunkfileName : Path :=
  [99, 104, 117, 110, 107, 102, 105, 108, 101]

/- `"haschunks"`. -/
def haschunksName : Path :=
  [104, 97, 115, 99, 104, 117, 110, 107, 115]

/- `bt_init`. -/
def btInit
    (h : Host) : CommandLine where
  config :=
    { chunkFile := []
      hasChunkFile := []
      outputFile := outputDat
      getChunkFile := []
      maxConn := 0
      identity := 0
      peers := []
      curDownload := 0
      numChunks := 0
      numDownloaded := 0
      download := []
      upload := []
      lastWhohas := 0
      peer := h.heap
      chunk := fun _ => none
      nextChunk := 0 }
  peerListFile := nodesMap
  myport := 0

/- What `main` sets in a build with `TESTING`. -/
def testingConfig
    (h : Host)
    (c : CommandLine) : CommandLine :=
  if h.testing then
    { c with
      config :=
        { c.config with
          identity := 10
          chunkFile := chunkfileName
          hasChunkFile := haschunksName } }
  else
    c

end PeerNet

------------------------------------------------------------
-- The Options
------------------------------------------------------------

namespace PeerNet

open Scanf Getopt

/- `"p:c:f:m:i:d:h"`. -/
def btOptstring : Bytes :=
  [112, 58, 99, 58, 102, 58, 109, 58, 105, 58, 100, 58, 104]

/- `set_debug`; what it sets only changes what is printed. -/
def setDebug
    (arg : Bytes) : Int :=
  match arg with
  | [] => -1
  | c :: _ =>
      if c = 63 ∨ arg = [108, 105, 115, 116] then
        -1
      else
        0

/- The body of the loop over the options. -/
def applyOption
    (c : CommandLine) :
    Found → Except Stop CommandLine
| .flag letter =>
    if letter = 104 then
      .error (.exit 0)
    else
      .error (.exit (-1))
| .valued letter optarg =>
    if letter = 100 then
      if setDebug optarg = -1 then
        .error (.exit (-1))
      else
        .ok c
    else if letter = 112 then
      (strcpy optarg).map fun path =>
        { c with peerListFile := path }
    else if letter = 99 then
      (strcpy optarg).map fun path =>
        { c with config.hasChunkFile := path }
    else if letter = 102 then
      (strcpy optarg).map fun path =>
        { c with config.chunkFile := path }
    else if letter = 109 then
      .ok { c with config.maxConn := atoi optarg }
    else if letter = 105 then
      .ok { c with config.identity := toShort (atoi optarg) }
    else
      .error (.exit (-1))
| .bad => .error (.exit (-1))

/- The loop, on `argv` without the name of the program. -/
def parseOptions
    (args : List Bytes)
    (c : CommandLine) : Except Stop CommandLine :=
  (options (kindOf btOptstring) none args).foldlM
    applyOption c

end PeerNet

------------------------------------------------------------
-- The Peer List
------------------------------------------------------------

namespace PeerNet

open Scanf

/-
  `sscanf(line, "%d %s %d", &nodeid, hostname, &port)`: the
  variables after it, or none where it returns 0. At the end
  of the line it returns `EOF` and stores nothing.
-/
def scanPeerLine
    (line : Bytes)
    (l : PeerLine) : Except Stop PeerLine :=
  match scanIntWordInt (line.takeWhile (fun c => c != 0)) with
  | .eof => .ok l
  | .none => .error .abort
  | .int nodeid => .ok { l with nodeid := nodeid }
  | .both nodeid hostname =>
      (strcpy hostname).map fun hostname =>
        { l with nodeid := nodeid, hostname := hostname }
  | .all nodeid hostname port =>
      (strcpy hostname).map fun hostname =>
        { nodeid := nodeid, hostname := hostname,
          port := port }

/- A new node in front of `config->peers`. -/
def addPeer
    (l : PeerLine)
    (sAddr : UInt32)
    (c : BtConfig) : BtConfig :=
  let node := c.peers.length
  { c with
    peer := Function.update c.peer node
      { c.peer node with
        id := toShort l.nodeid
        downloading := false
        chunk := none
        addr := ⟨sAddr, htons (UInt16.ofInt l.port)⟩ }
    peers := node :: c.peers }

/- The loop of `bt_parse_peer_list`. -/
def peerListLoop
    (h : Host) :
    List Bytes → PeerLine → BtConfig → Except Stop BtConfig
| [], _, c => .ok c
| line :: lines, l, c =>
    if line.head? = some 35 then
      peerListLoop h lines l c
    else
      match scanPeerLine line l with
      | .error stop => .error stop
      | .ok l =>
          match h.gethostbyname l.hostname with
          | none => .error .abort
          | some sAddr =>
              peerListLoop h lines l (addPeer l sAddr c)

/- `bt_parse_peer_list`; `fgets` leaves room for the zero. -/
def btParsePeerList
    (h : Host)
    (path : Path)
    (c : BtConfig) : Except Stop BtConfig :=
  match h.files.content path with
  | none => .error .abort
  | some text =>
      peerListLoop h (Fgets.lines (btFilenameLen - 1) text)
        h.stack c

/- `bt_peer_info`. -/
def btPeerInfo
    (peerId : Int)
    (c : BtConfig) : Option PeerRef :=
  c.peers.find? fun p => (c.peer p).id = peerId

end PeerNet

------------------------------------------------------------
-- The Start
------------------------------------------------------------

namespace PeerNet

/- What `bt_parse_command_line` does behind the peer list. -/
def checkIdentity
    (c : CommandLine) : Except Stop CommandLine :=
  if c.config.identity = 0 then
    .error (.exit (-1))
  else
    match btPeerInfo c.config.identity c.config with
    | none => .error (.exit (-1))
    | some p =>
        if c.config.chunkFile.length = 0 ∨
            c.config.hasChunkFile.length = 0 then
          .error .abort
        else
          .ok { c with
            myport := htons (c.config.peer p).addr.sinPort }

/- `bt_parse_command_line`. -/
def btParseCommandLine
    (h : Host)
    (args : List Bytes)
    (c : CommandLine) : Except Stop CommandLine := do
  let c ← parseOptions args c
  let config ← btParsePeerList h c.peerListFile c.config
  checkIdentity { c with config := config }

/-
  `main`, and `peer_run` before its loop. The clock was read
  once, in `bt_init`.
-/
def peerMain
    (h : Host)
    (args : List Bytes) : Except Stop PeerProcess := do
  let c ←
    btParseCommandLine h args (testingConfig h (btInit h))
  let config := c.config.resetPeers
  return .start
    { config := config
      files := h.files
      queue := []
      reads := 1
      trace := []
      fault := none }
    (.init config.identity ⟨loopback, htons c.myport⟩
      h.router)

end PeerNet
