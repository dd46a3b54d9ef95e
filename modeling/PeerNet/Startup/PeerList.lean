import PeerNet.Model.Startup
import PeerNet.Receiver.Pairing

/-
  The peer list file.

  `bt_parse_peer_list` puts an entry in front of the list for
  every line that is no comment. What it lists, `peerEntries`,
  depends on the lines alone, and the configuration follows:
  its list is the entries the other way round, at references
  of their own. The variables of the scan are never reset, so
  a blank line lists the peer before it once more.

  No line of the file can overflow the variables, whatever is
  in the file.

  Main declarations:
    * `peerListLoop_eq`
    * `entries_pushAll`
    * `btParsePeerList_fits`
    * `peerEntries_repeated`
    * `btParsePeerList_printed`
-/

------------------------------------------------------------
-- Entries
------------------------------------------------------------

namespace PeerNet

/- What an entry of the peer list is made from. -/
structure PeerEntry where
  id : Int
  addr : Addr
deriving DecidableEq

/- The entry for the variables, at a resolved address. -/
def PeerLine.entry
    (l : PeerLine)
    (sAddr : UInt32) : PeerEntry where
  id := toShort l.nodeid
  addr := ⟨sAddr, htons (UInt16.ofInt l.port)⟩

/- The entries of the lines, in the order of the file. -/
def peerEntries
    (h : Host) :
    List Bytes → PeerLine → Except Stop (List PeerEntry)
| [], _ => .ok []
| line :: lines, l =>
    if line.head? = some 35 then
      peerEntries h lines l
    else
      match scanPeerLine line l with
      | .error stop => .error stop
      | .ok l =>
          match h.gethostbyname l.hostname with
          | none => .error .abort
          | some sAddr =>
              (peerEntries h lines l).map
                (l.entry sAddr :: ·)

namespace BtConfig

/- The entries of the list, front to back. -/
def entries
    (c : BtConfig) : List PeerEntry :=
  c.peers.map fun p => ⟨(c.peer p).id, (c.peer p).addr⟩

/- A new node in front, for an entry. -/
@[simps]
def push
    (c : BtConfig)
    (entry : PeerEntry) : BtConfig :=
  { c with
    peer := Function.update c.peer c.peers.length
      { c.peer c.peers.length with
        id := entry.id
        downloading := false
        chunk := none
        addr := entry.addr }
    peers := c.peers.length :: c.peers }

def pushAll
    (es : List PeerEntry)
    (c : BtConfig) : BtConfig :=
  es.foldl push c

/- The references of the entries are 0, 1 and so on. -/
structure Numbered
    (c : BtConfig) : Prop where
  nodup : c.peers.Nodup
  small : ∀ p ∈ c.peers, p < c.peers.length

/-
  Nothing is downloaded or served, and the file names fit
  their arrays.
-/
structure Unused
    (c : BtConfig) : Prop where
  download : c.download = []
  upload : c.upload = []
  empty : ∀ r, c.chunk r = none
  curDownload : c.curDownload = 0
  chunkFile : c.chunkFile.length < btFilenameLen
  hasChunkFile : c.hasChunkFile.length < btFilenameLen

end BtConfig

section

variable {h : Host} {lines : List Bytes} {l : PeerLine}
variable {c c' : BtConfig} {es : List PeerEntry}
variable {entry : PeerEntry}

/- The loop lists what the lines say. -/
theorem peerListLoop_eq
    (h : Host)
    (lines : List Bytes)
    (l : PeerLine)
    (c : BtConfig) :
    peerListLoop h lines l c =
      (peerEntries h lines l).map (c.pushAll ·) := by
  induction lines generalizing l c with
  | nil => rfl
  | cons line lines ih =>
      unfold peerListLoop peerEntries
      split
      · exact ih l c
      · cases scanPeerLine line l with
        | error stop => rfl
        | ok l =>
            dsimp only
            cases h.gethostbyname l.hostname with
            | none => rfl
            | some sAddr =>
                dsimp only
                rw [ih]
                cases peerEntries h lines l <;> rfl

namespace BtConfig

/- The entries that are there stay what they are. -/
theorem Numbered.push_peer
    {p : PeerRef}
    (hNumbered : Numbered c)
    (hp : p ∈ c.peers)
    (entry : PeerEntry) :
    (c.push entry).peer p = c.peer p :=
  Function.update_of_ne
    (Nat.ne_of_lt (hNumbered.small p hp)) _ _

theorem Numbered.push
    (hNumbered : Numbered c)
    (entry : PeerEntry) :
    Numbered (c.push entry) := by
  constructor
  · refine List.nodup_cons.mpr ⟨?_, hNumbered.nodup⟩
    exact fun hIn => Nat.lt_irrefl _ (hNumbered.small _ hIn)
  · intro p hp
    rw [push_peers, List.length_cons]
    rcases List.mem_cons.mp hp with rfl | hp
    · exact Nat.lt_succ_self _
    · exact Nat.lt_succ_of_lt (hNumbered.small p hp)

theorem Numbered.pushAll
    (hNumbered : Numbered c)
    (es : List PeerEntry) :
    Numbered (c.pushAll es) := by
  induction es generalizing c with
  | nil => exact hNumbered
  | cons entry es ih => exact ih (hNumbered.push entry)

theorem entries_push
    (hNumbered : Numbered c)
    (entry : PeerEntry) :
    (c.push entry).entries = entry :: c.entries := by
  unfold entries
  rw [push_peers, List.map_cons, BtConfig.push_peer,
    Function.update_self]
  refine congrArg (entry :: ·) (List.map_congr_left ?_)
  intro p hp
  rw [hNumbered.push_peer hp]

/- The list is the file the other way round. -/
theorem entries_pushAll
    (hNumbered : Numbered c)
    (es : List PeerEntry) :
    (c.pushAll es).entries = es.reverse ++ c.entries := by
  induction es generalizing c with
  | nil => rfl
  | cons entry es ih =>
      calc
        (c.pushAll (entry :: es)).entries =
            es.reverse ++ (c.push entry).entries :=
          ih (hNumbered.push entry)
        _ = (entry :: es).reverse ++ c.entries := by
          rw [entries_push hNumbered, List.reverse_cons,
            List.append_assoc, List.singleton_append]

theorem Unused.push
    (hUnused : Unused c)
    (entry : PeerEntry) :
    Unused (c.push entry) :=
  { hUnused with }

theorem Unused.pushAll
    (hUnused : Unused c)
    (es : List PeerEntry) :
    Unused (c.pushAll es) := by
  induction es generalizing c with
  | nil => exact hUnused
  | cons entry es ih => exact ih (hUnused.push entry)

/- Distinct addresses, said of the entries. -/
theorem distinctAddrs_iff
    (hNodup : c.peers.Nodup) :
    DistinctAddrs c ↔
      (c.entries.map PeerEntry.addr).Nodup := by
  unfold entries DistinctAddrs
  rw [List.map_map]
  exact (List.nodup_map_iff_inj_on hNodup).symm

end BtConfig

end

end PeerNet

------------------------------------------------------------
-- Any File
------------------------------------------------------------

namespace PeerNet

open Scanf

section

variable {h : Host} {line : Bytes} {lines : List Bytes}
variable {l : PeerLine} {es : List PeerEntry}

/- A host name that `fgets` left room for fits. -/
theorem scanPeerLine_fits
    (hFits : line.length < btFilenameLen)
    (l : PeerLine) :
    scanPeerLine line l ≠ .error .overflow := by
  have hWord :
      ∀ {word : Bytes},
        word.length <
            (line.takeWhile (fun c => c != 0)).length →
          strcpy word = .ok word := by
    intro word hLess
    have hLine :=
      (List.takeWhile_prefix (fun c => c != 0)
        (l := line)).length_le
    unfold strcpy
    rw [if_pos (by omega)]
  unfold scanPeerLine
  split
  · simp
  · simp
  · simp
  · next nodeid hostname hScan =>
      rw [hWord (@length_of_scanIntWordInt
        _ 0 _ _ (.inl hScan))]
      simp [Except.map]
  · next nodeid hostname port hScan =>
      rw [hWord (length_of_scanIntWordInt (.inr hScan))]
      simp [Except.map]

theorem peerEntries_fits
    (hFit : ∀ line ∈ lines, line.length < btFilenameLen)
    (l : PeerLine) :
    peerEntries h lines l ≠ .error .overflow := by
  induction lines generalizing l with
  | nil => simp [peerEntries]
  | cons line lines ih =>
      rw [List.forall_mem_cons] at hFit
      have hScan := scanPeerLine_fits hFit.1 l
      unfold peerEntries
      split
      · exact ih hFit.2 l
      · cases hLine : scanPeerLine line l with
        | error stop =>
            rw [hLine] at hScan
            simpa using hScan
        | ok l' =>
            dsimp only
            cases h.gethostbyname l'.hostname with
            | none => simp
            | some sAddr =>
                have hRest := ih hFit.2 l'
                dsimp only
                cases hLines : peerEntries h lines l' with
                | error stop =>
                    rw [hLines] at hRest
                    exact hRest
                | ok es => simp [Except.map]

/- A comment is skipped, and another line makes an entry. -/
theorem peerEntries_cons_iff :
    peerEntries h (line :: lines) l = .ok es ↔
      (line.head? = some 35 ∧ peerEntries h lines l = .ok es) ∨
        (line.head? ≠ some 35 ∧
          ∃ l' sAddr es',
            scanPeerLine line l = .ok l' ∧
              h.gethostbyname l'.hostname = some sAddr ∧
                peerEntries h lines l' = .ok es' ∧
                  es = l'.entry sAddr :: es') := by
  rw [peerEntries]
  split
  · next hComment => simp [hComment]
  next hOther =>
  constructor
  · intro hLines
    refine .inr ⟨hOther, ?_⟩
    cases hScan : scanPeerLine line l with
    | error stop => simp [hScan] at hLines
    | ok l' =>
    rw [hScan] at hLines
    dsimp only at hLines
    cases hHost : h.gethostbyname l'.hostname with
    | none => simp [hHost] at hLines
    | some sAddr =>
    rw [hHost] at hLines
    dsimp only at hLines
    cases hRest : peerEntries h lines l' with
    | error stop => simp [hRest, Except.map] at hLines
    | ok es' =>
        rw [hRest] at hLines
        exact ⟨l', sAddr, es', rfl, hHost, hRest,
          (Except.ok.inj hLines).symm⟩
  · rintro (⟨hComment, -⟩ |
      ⟨-, l', sAddr, es', hScan, hHost, hRest, rfl⟩)
    · exact absurd hComment hOther
    · rw [hScan]
      dsimp only
      rw [hHost]
      dsimp only
      rw [hRest]
      rfl

/- Every line that is no comment makes an entry. -/
theorem length_peerEntries
    (hEntries : peerEntries h lines l = .ok es) :
    es.length =
      lines.countP (fun line => line.head? != some 35) := by
  induction lines generalizing l es with
  | nil =>
      cases hEntries
      rfl
  | cons line lines ih =>
      rcases peerEntries_cons_iff.mp hEntries with
        ⟨hComment, hRest⟩ |
        ⟨hOther, l', sAddr, es', -, -, hRest, rfl⟩
      · rw [ih hRest,
          List.countP_cons_of_neg (by simp [hComment])]
      · rw [List.countP_cons_of_pos (by simpa using hOther),
          List.length_cons, ih hRest]

theorem btParsePeerList_fits
    (h : Host)
    (path : Path)
    (c : BtConfig) :
    btParsePeerList h path c ≠ .error .overflow := by
  unfold btParsePeerList
  split
  · simp
  · next text hFile =>
      have hFit :
          ∀ line ∈ Fgets.lines (btFilenameLen - 1) text,
            line.length < btFilenameLen :=
        fun line hIn =>
          Nat.lt_succ_of_le (Fgets.length_of_mem_lines hIn)
      have hEntries := @peerEntries_fits h _ hFit h.stack
      rw [peerListLoop_eq]
      cases hLines :
          peerEntries h
            (Fgets.lines (btFilenameLen - 1) text) h.stack with
      | error stop =>
          rw [hLines] at hEntries
          simpa [Except.map] using hEntries
      | ok es => simp [Except.map]

/- The lines of two parts of a file. -/
theorem peerEntries_append
    {more : List Bytes}
    (hEntries : peerEntries h (lines ++ more) l = .ok es) :
    ∃ l' es₁ es₂,
      peerEntries h more l' = .ok es₂ ∧ es = es₁ ++ es₂ := by
  induction lines generalizing l es with
  | nil => exact ⟨l, [], es, hEntries, rfl⟩
  | cons line lines ih =>
      rcases peerEntries_cons_iff.mp hEntries with
        ⟨-, hRest⟩ | ⟨-, l', sAddr, es', -, -, hRest, rfl⟩
      · exact ih hRest
      · rcases ih hRest with ⟨l'', es₁, es₂, hMore, rfl⟩
        exact ⟨l'', l'.entry sAddr :: es₁, es₂, hMore, rfl⟩

theorem peerEntries_comments
    {more : List Bytes}
    (hComments : ∀ line ∈ lines, line.head? = some 35) :
    peerEntries h (lines ++ more) l = peerEntries h more l := by
  induction lines with
  | nil => rfl
  | cons line lines ih =>
      rw [List.forall_mem_cons] at hComments
      rw [List.cons_append, peerEntries, if_pos hComments.1]
      exact ih hComments.2

/- A blank line leaves the variables alone. -/
theorem scanPeerLine_blank
    (hBlank : ∀ c ∈ line, isSpace c = true)
    (l : PeerLine) :
    scanPeerLine line l = .ok l := by
  have hAll :
      ∀ c ∈ line.takeWhile (fun c => c != 0),
        isSpace c = true :=
    fun c hc => hBlank c ((List.takeWhile_prefix _).mem hc)
  unfold scanPeerLine
  rw [scanIntWordInt_blank hAll]

theorem head_blank
    (hBlank : ∀ c ∈ line, isSpace c = true) :
    line.head? ≠ some 35 := by
  cases line with
  | nil => decide
  | cons c line =>
      have hSpace := hBlank c List.mem_cons_self
      rw [List.head?_cons]
      intro hSame
      rw [Option.some.inj hSame] at hSpace
      exact absurd hSpace (by decide)

/- It lists the peer of the line before it again. -/
theorem peerEntries_repeated
    {first blank : Bytes}
    {before comments after : List Bytes}
    (hEntries :
      peerEntries h
          (before ++ first :: (comments ++ blank :: after)) l =
        .ok es)
    (hFirst : first.head? ≠ some 35)
    (hComments : ∀ line ∈ comments, line.head? = some 35)
    (hBlank : ∀ c ∈ blank, isSpace c = true) :
    ∃ es₁ entry es₂, es = es₁ ++ entry :: entry :: es₂ := by
  rcases peerEntries_append hEntries with
    ⟨l₁, es₁, es₂, hRest, rfl⟩
  rcases peerEntries_cons_iff.mp hRest with
    ⟨hComment, -⟩ |
    ⟨-, l₂, sAddr, es₃, -, hHost, hMore, rfl⟩
  · exact absurd hComment hFirst
  rw [peerEntries_comments hComments] at hMore
  rcases peerEntries_cons_iff.mp hMore with
    ⟨hComment, -⟩ |
    ⟨-, l₃, sAddr', es₄, hScan, hAgain, -, rfl⟩
  · exact absurd hComment (head_blank hBlank)
  -- the variables, and so the resolved name, are the same
  rw [scanPeerLine_blank hBlank] at hScan
  rw [← Except.ok.inj hScan, hHost] at hAgain
  rw [← Except.ok.inj hScan, ← Option.some.inj hAgain]
  exact ⟨es₁, l₂.entry sAddr, es₄, rfl⟩

end

end PeerNet

------------------------------------------------------------
-- Printed Files
------------------------------------------------------------

namespace PeerNet

open Scanf

/- A line of the file, without its newline. -/
inductive MapLine where
  | comment (text : Bytes)
  | blank (text : Bytes)
  | peer (nodeid : Int) (hostname : Bytes) (port : Int)

namespace MapLine

def text :
    MapLine → Bytes
| .comment text => 35 :: text
| .blank text => text
| .peer nodeid hostname port =>
    printInt nodeid ++ 32 :: (hostname ++ 32 :: printInt port)

/- It is one line, and its parts are what they are for. -/
def Plain :
    MapLine → Prop
| .comment text => 10 ∉ text
| .blank text => 10 ∉ text ∧ ∀ c ∈ text, isSpace c = true
| .peer nodeid hostname port =>
    storeInt nodeid = nodeid ∧ storeInt port = port ∧
      Word hostname ∧ 0 ∉ hostname

/- The variables at the lines that are no comments. -/
def peers :
    List MapLine → PeerLine → List PeerLine
| [], _ => []
| .comment _ :: lines, l => peers lines l
| .blank _ :: lines, l => l :: peers lines l
| .peer nodeid hostname port :: lines, _ =>
    ⟨nodeid, hostname, port⟩ ::
      peers lines ⟨nodeid, hostname, port⟩

end MapLine

/- The file of some lines. -/
def printMap
    (lines : List MapLine) : Bytes :=
  ((lines.map MapLine.text).map (· ++ [10])).flatten

/- The entry for the variables, where the name resolves. -/
def Host.entry
    (h : Host)
    (l : PeerLine) : PeerEntry :=
  l.entry ((h.gethostbyname l.hostname).getD 0)

section

variable {h : Host} {line : MapLine} {lines : List MapLine}
variable {l : PeerLine} {nodeid port : Int}
variable {hostname : Bytes}

/- A printed number is on one line, without a zero. -/
theorem plain_printInt
    (value : Int) :
    10 ∉ printInt value ∧ 0 ∉ printInt value ∧
      35 ∉ printInt value := by
  refine ⟨?_, ?_, ?_⟩ <;> intro hIn <;>
    exact absurd (mem_printInt hIn) (by decide)

theorem MapLine.Plain.one_line
    (hPlain : line.Plain) :
    10 ∉ line.text := by
  cases line with
  | comment text =>
      intro hIn
      rcases List.mem_cons.mp hIn with hFirst | hText
      · exact absurd hFirst (by decide)
      · exact hPlain hText
  | blank text => exact hPlain.1
  | peer nodeid hostname port =>
      have hId := (plain_printInt nodeid).1
      have hPort := (plain_printInt port).1
      have hSpace : isSpace 10 = true := by decide
      have hHost : 10 ∉ hostname := by
        intro hIn
        rw [hPlain.2.2.1.all 10 hIn] at hSpace
        cases hSpace
      simp [MapLine.text, hId, hHost, hPort]

/- A printed line of a peer is read as it was. -/
theorem scanPeerLine_printed
    (hPlain : (MapLine.peer nodeid hostname port).Plain)
    (hFits :
      (MapLine.peer nodeid hostname port).text.length <
        btFilenameLen - 1)
    (l : PeerLine) :
    scanPeerLine
        ((MapLine.peer nodeid hostname port).text ++ [10]) l =
      .ok ⟨nodeid, hostname, port⟩ := by
  rcases hPlain with ⟨hId, hPort, hWord, hZero⟩
  have hNoZero :
      0 ∉ (MapLine.peer nodeid hostname port).text ++ [10] := by
    simp [MapLine.text, (plain_printInt nodeid).2.1, hZero,
      (plain_printInt port).2.1]
  have hWhole :
      ((MapLine.peer nodeid hostname port).text ++
          [10]).takeWhile (fun c => c != 0) =
        (MapLine.peer nodeid hostname port).text ++ [10] := by
    apply List.takeWhile_eq_self_iff.mpr
    intro c hc
    rw [bne_iff_ne]
    rintro rfl
    exact hNoZero hc
  have hText :
      (MapLine.peer nodeid hostname port).text ++ [10] =
        printInt nodeid ++ 32 ::
          (hostname ++ 32 :: (printInt port ++ [10])) := by
    simp [MapLine.text]
  have hEnd : ∀ c ∈ ([10] : Text).head?, isDigit c = false := by
    intro c hc
    rw [← Option.some.inj hc]
    decide
  have hName : hostname.length < btFilenameLen := by
    simp only [MapLine.text, List.length_append,
      List.length_cons] at hFits
    omega
  unfold scanPeerLine
  rw [hWhole, hText,
    scanIntWordInt_printed hId hWord hPort hEnd]
  dsimp only
  unfold strcpy
  rw [if_pos hName]
  rfl

/- A peer's line is no comment. -/
theorem head_peer
    (nodeid port : Int)
    (hostname : Bytes) :
    ((MapLine.peer nodeid hostname port).text ++ [10]).head? ≠
      some 35 := by
  have hId := (plain_printInt nodeid).2.2
  have hText :
      (MapLine.peer nodeid hostname port).text ++ [10] =
        printInt nodeid ++
          (32 :: (hostname ++ 32 :: printInt port) ++ [10]) :=
    List.append_assoc _ _ _
  rw [hText]
  cases hDigits : printInt nodeid with
  | nil =>
      intro hSame
      exact absurd (Option.some.inj hSame) (by decide)
  | cons c digits =>
      rw [hDigits] at hId
      rw [List.cons_append, List.head?_cons]
      intro hSame
      rw [Option.some.inj hSame] at hId
      exact hId List.mem_cons_self

/- The printed lines list what they were printed from. -/
theorem peerEntries_lines
    (hPlain : ∀ line ∈ lines, line.Plain)
    (hFit : ∀ line ∈ lines,
      line.text.length < btFilenameLen - 1)
    (hHosts : ∀ l' ∈ MapLine.peers lines l,
      (h.gethostbyname l'.hostname).isSome) :
    peerEntries h
        ((lines.map MapLine.text).map (· ++ [10])) l =
      .ok ((MapLine.peers lines l).map h.entry) := by
  induction lines generalizing l with
  | nil => rfl
  | cons line lines ih =>
      rw [List.forall_mem_cons] at hPlain hFit
      rw [List.map_cons, List.map_cons, peerEntries]
      cases line with
      | comment text =>
          have hFirst :
              ((MapLine.comment text).text ++ [10]).head? =
                some 35 := rfl
          rw [if_pos hFirst]
          exact ih hPlain.2 hFit.2 hHosts
      | blank text =>
          unfold MapLine.peers at hHosts
          rw [List.forall_mem_cons] at hHosts
          rcases Option.isSome_iff_exists.mp hHosts.1 with
            ⟨sAddr, hResolved⟩
          have hText : (MapLine.blank text).text = text := rfl
          have hBlank : ∀ c ∈ text ++ [10], isSpace c = true := by
            intro c hc
            rcases List.mem_append.mp hc with hIn | hEnd
            · exact hPlain.1.2 c hIn
            · rw [List.mem_singleton.mp hEnd]
              decide
          rw [hText, if_neg (head_blank hBlank),
            scanPeerLine_blank hBlank]
          dsimp only
          rw [hResolved]
          dsimp only
          rw [ih hPlain.2 hFit.2 hHosts.2]
          simp [Except.map, MapLine.peers, Host.entry,
            hResolved]
      | peer nodeid hostname port =>
          unfold MapLine.peers at hHosts
          rw [List.forall_mem_cons] at hHosts
          rcases Option.isSome_iff_exists.mp hHosts.1 with
            ⟨sAddr, hResolved⟩
          rw [if_neg (head_peer nodeid port hostname),
            scanPeerLine_printed hPlain.1 hFit.1]
          dsimp only at hResolved ⊢
          rw [hResolved]
          dsimp only
          rw [ih hPlain.2 hFit.2 hHosts.2]
          simp [Except.map, MapLine.peers, Host.entry,
            hResolved]

theorem lines_printMap
    (hPlain : ∀ line ∈ lines, line.Plain)
    (hFit : ∀ line ∈ lines,
      line.text.length < btFilenameLen - 1) :
    Fgets.lines (btFilenameLen - 1) (printMap lines) =
      (lines.map MapLine.text).map (· ++ [10]) := by
  apply Fgets.lines_joined
  · rw [List.forall_mem_map]
    exact fun line hIn => (hPlain line hIn).one_line
  · rw [List.forall_mem_map]
    exact hFit

/- A printed file is read as it was. -/
theorem btParsePeerList_printed
    {path : Path}
    (hPlain : ∀ line ∈ lines, line.Plain)
    (hFit : ∀ line ∈ lines,
      line.text.length < btFilenameLen - 1)
    (hHosts : ∀ l' ∈ MapLine.peers lines h.stack,
      (h.gethostbyname l'.hostname).isSome)
    (hFile : h.files.content path = some (printMap lines))
    (c : BtConfig) :
    btParsePeerList h path c =
      .ok (c.pushAll
        ((MapLine.peers lines h.stack).map h.entry)) := by
  unfold btParsePeerList
  rw [hFile]
  dsimp only
  rw [peerListLoop_eq, lines_printMap hPlain hFit,
    peerEntries_lines hPlain hFit hHosts]
  rfl

end

end PeerNet
