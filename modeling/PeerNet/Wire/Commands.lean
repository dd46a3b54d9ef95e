import PeerNet.Lib.Framing
import PeerNet.Model.InputBuffer

/-
  Which lines reach `handle_line`.

  The bytes up to `cur` are always the unfinished rest of
  the stream. A call reads behind them and takes lines off
  as long as the string in the buffer has a newline. That
  string goes on behind what was read, up to the first NUL
  there, and may run into newlines of earlier, longer
  contents. As long as it does not, every line is handed on
  once and in order, however the reads cut the stream.

  Main declarations:
    * `InBuffer`
    * `Intact`
    * `NothingBehind`
    * `lineLoop_spec`
    * `commands_intact_iff`
    * `commands_intact_of_half`
-/

------------------------------------------------------------
-- Strings in a Buffer
------------------------------------------------------------

namespace PeerNet

section

variable {buf line more tail : Bytes}

/- Text without NUL comes before the string that follows. -/
theorem cString_append
    (hText : 0 ∉ line)
    (tail : Bytes) :
    cString (line ++ tail) = line ++ cString tail := by
  unfold cString
  rw [List.takeWhile_append_of_pos]
  intro c hc
  rw [decide_eq_true_eq]
  rintro rfl
  exact hText hc

/- A string ends at the first NUL. -/
theorem cString_cons_zero
    (tail : Bytes) :
    cString (0 :: tail) = [] := by
  simp [cString]

/- What lies behind a NUL does not matter. -/
theorem cString_append_of_mem
    (hNul : 0 ∈ tail)
    (more : Bytes) :
    cString (tail ++ more) = cString tail := by
  induction tail with
  | nil => cases hNul
  | cons c tail ih =>
      by_cases hZero : c = 0
      · rw [hZero, List.cons_append, cString_cons_zero,
          cString_cons_zero]
      · have hRest : 0 ∈ tail := by
          rcases List.mem_cons.mp hNul with h | h
          · exact absurd h.symm hZero
          · exact h
        have hMore := ih hRest
        unfold cString at hMore ⊢
        rw [List.cons_append, List.takeWhile_cons,
          List.takeWhile_cons, hMore]

/- `strchr` finds nothing if the string has no such byte. -/
theorem strchr_eq_none_iff
    {c : UInt8} :
    strchr c buf = none ↔ c ∉ cString buf := by
  unfold strchr
  rw [List.findIdx?_eq_none_iff]
  constructor
  · intro hNone hMem
    have hNot := hNone c hMem
    simp at hNot
  · intro hNot d hMem
    rw [decide_eq_false_iff_not]
    rintro rfl
    exact hNot hMem

/- And it finds the first one. -/
theorem strchr_line
    {c : UInt8}
    (hText : 0 ∉ line)
    (hFree : c ∉ line)
    (hChar : c ≠ 0)
    (tail : Bytes) :
    strchr c (line ++ c :: tail) = some line.length := by
  have hString :
      cString (line ++ c :: tail) =
        line ++ c :: cString tail := by
    rw [cString_append hText]
    unfold cString
    rw [List.takeWhile_cons, if_pos (decide_eq_true hChar)]
  unfold strchr
  rw [hString, List.findIdx?_append]
  have hNone :
      line.findIdx? (fun d => d = c) = none := by
    rw [List.findIdx?_eq_none_iff]
    intro d hMem
    rw [decide_eq_false_iff_not]
    rintro rfl
    exact hFree hMem
  rw [hNone, List.findIdx?_cons, if_pos (decide_eq_true rfl)]
  simp

end

end PeerNet

------------------------------------------------------------
-- Taking Lines
------------------------------------------------------------

namespace PeerNet

open Framing UserIobuf

/-
  The buffer has its full size, starts with this text and
  goes on with `tail`, whose last byte is NUL.
-/
structure InBuffer
    (buf text tail : Bytes) : Prop where
  split : buf = text ++ tail
  size : buf.length = userbufSize + 1
  last : tail.getLast? = some 0

section

variable {buf text tail line more : Bytes}
variable {b : UserIobuf}

theorem InBuffer.nul
    (h : InBuffer buf text tail) :
    0 ∈ tail :=
  List.mem_of_getLast? h.last

/- The text leaves room for the NUL. -/
theorem InBuffer.length_le
    (h : InBuffer buf text tail) :
    text.length + tail.length = userbufSize + 1 ∧
      text.length ≤ userbufSize := by
  have hSize := h.size
  have hPos := List.length_pos_of_mem h.nul
  rw [h.split, List.length_append] at hSize
  omega

/- The bytes that a move to the front does not overwrite. -/
def leftBehind
    (line more tail : Bytes) : Bytes :=
  (line ++ 0 :: (more ++ tail)).drop
    (userbufSize - line.length)

/- The buffer when the first line of the text is taken off. -/
def lineTaken
    (cur : Nat)
    (line more tail : Bytes) : UserIobuf where
  buf := more ++ (tail ++ leftBehind line more tail)
  cur := toUInt32 (cur - (line.length + 1))

/- One round of the loop. -/
theorem takeLine_spec
    (h : InBuffer b.buf (line ++ newline :: more) tail)
    (hText : 0 ∉ line) :
    b.takeLine line.length =
        (line, lineTaken b.cur line more tail) ∧
      InBuffer (lineTaken b.cur line more tail).buf more
        (tail ++ leftBehind line more tail) ∧
      (2 * (line ++ newline :: more).length ≤
          userbufSize + 1 →
        ∀ c ∈ leftBehind line more tail, c ∈ tail) := by
  have hLength := h.length_le
  rw [List.length_append, List.length_cons] at hLength
  have hSet :
      b.buf.set line.length 0 =
        line ++ 0 :: (more ++ tail) := by
    rw [h.split, List.append_assoc,
      List.set_append_right _ _ le_rfl, Nat.sub_self]
    rfl
  have hBehind :
      (leftBehind line more tail).length =
        line.length + 1 := by
    rw [leftBehind, List.length_drop, List.length_append,
      List.length_cons, List.length_append]
    omega
  refine ⟨?_, ⟨rfl, ?_, ?_⟩, ?_⟩
  · unfold takeLine lineTaken
    dsimp only
    rw [hSet, cString_append hText, cString_cons_zero,
      List.append_nil, List.drop_length_add_append,
      List.drop_succ_cons, List.drop_zero,
      List.take_of_length_le, List.append_assoc]
    · rfl
    · rw [List.length_append]
      omega
  · rw [lineTaken, List.length_append, List.length_append,
      hBehind]
    omega
  · rw [leftBehind, List.getLast?_append, List.getLast?_drop,
      if_neg]
    · rw [List.getLast?_append_of_ne_nil, List.getLast?_cons,
        List.getLast?_append, h.last]
      · rfl
      · exact List.cons_ne_nil _ _
    · rw [List.length_append, List.length_cons,
        List.length_append]
      omega
  · intro hHalf c hc
    rw [List.length_append, List.length_cons] at hHalf
    have hAll :
        line ++ 0 :: (more ++ tail) =
          (line ++ 0 :: more) ++ tail := by
      rw [List.append_assoc]
      rfl
    have hInside : c ∈ ((line ++ 0 :: more) ++ tail).drop
        (userbufSize - line.length) := by
      rw [← hAll]
      exact hc
    rw [List.drop_append, List.drop_eq_nil_of_le,
      List.nil_append] at hInside
    · exact List.mem_of_mem_drop hInside
    · rw [List.length_append, List.length_cons]
      omega

/- The loop takes the first line off and goes on. -/
theorem lineLoop_line
    (h : InBuffer b.buf (line ++ newline :: more) tail)
    (hText : 0 ∉ line)
    (hFree : newline ∉ line)
    (fuel : Nat) :
    lineLoop (fuel + 1) b =
      (line ::
          (lineLoop fuel (lineTaken b.cur line more tail)).1,
        (lineLoop fuel
          (lineTaken b.cur line more tail)).2) := by
  have hFound : strchr newline b.buf = some line.length := by
    rw [h.split, List.append_assoc]
    exact strchr_line hText hFree (by decide) _
  rw [lineLoop, hFound]
  dsimp only
  rw [(takeLine_spec h hText).1]

/- What is left when all lines of a text are taken off. -/
structure LinesTaken
    (b : UserIobuf)
    (text tail : Bytes)
    (b' : UserIobuf)
    (tail' : Bytes) : Prop where
  holds : InBuffer b'.buf (rest newline text) tail'
  cur : text.length ≤ b.cur → b.cur < 2 ^ 32 →
    b'.cur + text.length =
      b.cur + (rest newline text).length
  clear : 2 * text.length ≤ userbufSize + 1 →
    (∀ c ∈ tail, c = 0) → ∀ c ∈ tail', c = 0

/-
  The loop hands on the lines of the text if the string does
  not go on into another line behind it.
-/
theorem lineLoop_spec
    (fuel : Nat)
    (h : InBuffer b.buf text tail)
    (hText : 0 ∉ text)
    (hTail : newline ∉ cString tail)
    (hFuel : text.length < fuel) :
    ∃ b' tail',
      lineLoop fuel b = (frames newline text, b') ∧
        LinesTaken b text tail b' tail' := by
  induction fuel generalizing b text tail with
  | zero => exact absurd hFuel (Nat.not_lt_zero _)
  | succ fuel ih =>
      by_cases hMem : newline ∈ text
      · rcases List.eq_append_cons_of_mem hMem with
          ⟨line, more, rfl, hFree⟩
        rw [List.mem_append, List.mem_cons, not_or, not_or]
          at hText
        rcases takeLine_spec h hText.1 with
          ⟨-, hNext, hClear⟩
        have hSame :
            cString (tail ++ leftBehind line more tail) =
              cString tail :=
          cString_append_of_mem h.nul _
        rw [List.length_append, List.length_cons] at hFuel
        have hLoop :=
          ih hNext hText.2.2 (by rwa [hSame]) (by omega)
        rcases hLoop with ⟨b', tail', hOthers, hLeft⟩
        have hRest := rest_frame hFree more
        refine ⟨b', tail', ?_, ?_, ?_, ?_⟩
        · rw [lineLoop_line h hText.1 hFree, hOthers,
            frames_frame hFree]
        · rw [hRest]
          exact hLeft.holds
        · intro hIn hSmall
          rw [List.length_append, List.length_cons] at hIn ⊢
          have hSub :
              toUInt32 (b.cur - (line.length + 1)) =
                b.cur - (line.length + 1) := by
            unfold toUInt32
            omega
          have hCur := hLeft.cur
          unfold lineTaken at hCur
          rw [hSub] at hCur
          dsimp only at hCur
          rw [hRest]
          omega
        · intro hHalf hZero
          rw [List.length_append, List.length_cons] at hHalf
          apply hLeft.clear (by omega)
          intro c hc
          rcases List.mem_append.mp hc with hc | hc
          · exact hZero c hc
          · refine hZero c (hClear ?_ c hc)
            rw [List.length_append, List.length_cons]
            exact hHalf
      · have hNone : strchr newline b.buf = none := by
          rw [strchr_eq_none_iff, h.split, cString_append hText,
            List.mem_append, not_or]
          exact ⟨hMem, hTail⟩
        have hRest := rest_of_free hMem
        refine ⟨b, tail, ?_, ?_, ?_, ?_⟩
        · unfold lineLoop
          rw [hNone, frames_free hMem]
        · rw [hRest]
          exact h
        · intro _ _
          rw [hRest]
        · exact fun _ hZero => hZero

/- The string of the text and of what follows it. -/
theorem InBuffer.string
    (h : InBuffer buf text tail) :
    InBuffer buf (text ++ cString tail)
      (tail.dropWhile (fun c => c ≠ 0)) := by
  have hTail :
      cString tail ++ tail.dropWhile (fun c => c ≠ 0) = tail :=
    List.takeWhile_append_dropWhile
  refine ⟨?_, h.size, ?_⟩
  · rw [List.append_assoc, hTail]
    exact h.split
  · have hLast := h.last
    rw [← hTail, List.getLast?_append_of_ne_nil] at hLast
    · exact hLast
    · rw [Ne, List.dropWhile_eq_nil_iff, not_forall]
      exact ⟨0, fun hAll => by simpa using hAll h.nul⟩

/- Behind its end no string starts. -/
theorem cString_dropWhile
    (buf : Bytes) :
    cString (buf.dropWhile (fun c => c ≠ 0)) = [] := by
  have hHead :=
    List.head?_dropWhile_not (fun c : UInt8 => c ≠ 0) buf
  unfold cString
  cases hRest : buf.dropWhile (fun c => c ≠ 0) with
  | nil => rfl
  | cons c rest =>
      rw [hRest] at hHead
      rw [List.takeWhile_cons, if_neg]
      simpa using hHead

theorem zero_not_mem_cString
    (buf : Bytes) :
    0 ∉ cString buf := by
  intro hMem
  simpa using List.mem_takeWhile_imp hMem

/- In any case the loop hands on the lines of that string. -/
theorem lineLoop_lines
    {fuel : Nat}
    (h : InBuffer b.buf text tail)
    (hText : 0 ∉ text)
    (hFuel : userbufSize + 1 < fuel) :
    (lineLoop fuel b).1 =
      frames newline (text ++ cString tail) := by
  have hString := h.string
  have hNone :
      newline ∉ cString (tail.dropWhile (fun c => c ≠ 0)) := by
    rw [cString_dropWhile]
    exact List.not_mem_nil
  have hBoth : 0 ∉ text ++ cString tail := by
    rw [List.mem_append, not_or]
    exact ⟨hText, zero_not_mem_cString tail⟩
  have hLength := hString.length_le
  rcases lineLoop_spec fuel hString hBoth hNone
      (by omega) with
    ⟨b', tail', hLoop, -⟩
  rw [hLoop]

/- What `read` stores lies between the text and the rest. -/
theorem InBuffer.store
    {data : Bytes}
    (h : InBuffer b.buf text tail)
    (hCur : b.cur = text.length)
    (hFits : data.length ≤ userbufSize - b.cur) :
    InBuffer (b.store data).buf (text ++ data)
        (tail.drop data.length) ∧
      (b.store data).cur = (text ++ data).length ∧
      b.buf.drop (b.cur + data.length) =
        tail.drop data.length := by
  have hLength := h.length_le
  have hBehind :
      b.buf.drop (b.cur + data.length) =
        tail.drop data.length := by
    rw [h.split, hCur, List.drop_length_add_append]
  have hFront : b.buf.take b.cur = text := by
    rw [h.split, hCur, List.take_left]
  have hStored :
      (b.store data).buf =
        text ++ data ++ tail.drop data.length := by
    unfold UserIobuf.store
    rw [hFront, hBehind]
  refine ⟨⟨hStored, ?_, ?_⟩, ?_, hBehind⟩
  · rw [hStored, List.length_append, List.length_append,
      List.length_drop]
    omega
  · rw [List.getLast?_drop, if_neg (by omega)]
    exact h.last
  · rw [List.length_append, ← hCur]
    rfl

end

end PeerNet

------------------------------------------------------------
-- One Call
------------------------------------------------------------

namespace PeerNet

open Framing UserIobuf InputSession

/- The lines of the stream were handed on, its rest is left. -/
structure Intact
    (s : InputSession)
    (stream : Bytes) : Prop where
  running : s.exited = false
  lines : s.lines = frames newline stream
  cur : s.userbuf.cur = (rest newline stream).length

/- No NUL in the stream, and no line that fills the buffer. -/
structure Typed
    (stream : Bytes) : Prop where
  text : 0 ∉ stream
  lines : ∀ line ∈ frames newline stream,
    line.length < userbufSize - 1
  rest : (rest newline stream).length < userbufSize - 1

/-
  Behind the bytes that this read fills, `strchr` finds no
  newline before the first NUL.
-/
def NothingBehind
    (b : UserIobuf)
    (data : Bytes) : Prop :=
  strchr newline (b.buf.drop (b.cur + data.length)) = none

/- And the buffer starts with the rest of the stream. -/
structure Delivered
    (s : InputSession)
    (stream tail : Bytes) : Prop
    extends Intact s stream where
  holds :
    InBuffer s.userbuf.buf (rest newline stream) tail

section

variable {s : InputSession} {stream data tail : Bytes}
variable {more : Bytes}

theorem Typed.left
    (h : Typed (stream ++ more)) :
    Typed stream where
  text := fun hMem =>
    h.text (List.mem_append_left _ hMem)
  lines := by
    intro line hLine
    apply h.lines line
    rw [frames_append]
    exact List.mem_append_left _ hLine
  rest := by
    rcases rest_prefix newline stream more with
      ⟨line, hLine, hPrefix⟩ | hPrefix
    · exact hPrefix.length_le.trans_lt (h.lines line hLine)
    · exact hPrefix.length_le.trans_lt h.rest

/- The unfinished rest and what was read are text. -/
theorem Typed.content
    (h : Typed (stream ++ data)) :
    0 ∉ Framing.rest newline stream ++ data := by
  rw [List.mem_append, not_or]
  constructor
  · intro hMem
    exact h.left.text
      ((rest_suffix newline stream).mem hMem)
  · intro hMem
    exact h.text (List.mem_append_right _ hMem)

theorem step_of_running
    (h : Delivered s stream tail)
    (hTyped : Typed stream)
    (data : Bytes) :
    s.step data =
      { s with
        userbuf :=
          (lineLoop ((s.userbuf.store data).buf.length + 1)
            (s.userbuf.store data)).2
        lines := s.lines ++
          (lineLoop ((s.userbuf.store data).buf.length + 1)
            (s.userbuf.store data)).1 } := by
  have hRoom : ¬ userbufSize - 1 ≤ s.userbuf.cur := by
    rw [h.cur]
    exact Nat.not_le_of_lt hTyped.rest
  unfold InputSession.step processUserInput
  rw [if_neg (by rw [h.running]; exact Bool.false_ne_true),
    if_neg hRoom]

/- A call with nothing behind what it reads. -/
theorem Delivered.step
    (h : Delivered s stream tail)
    (hTyped : Typed (stream ++ data))
    (hFits : ReadFits s data)
    (hNone : NothingBehind s.userbuf data) :
    ∃ tail', Delivered (s.step data) (stream ++ data) tail' ∧
      (2 * (s.userbuf.cur + data.length) ≤ userbufSize + 1 →
        (∀ c ∈ tail, c = 0) → ∀ c ∈ tail', c = 0) := by
  rcases h.holds.store h.cur hFits with
    ⟨hStored, hCur, hBehind⟩
  have hTail : newline ∉ cString (tail.drop data.length) := by
    rw [← hBehind]
    exact strchr_eq_none_iff.mp hNone
  have hLength := hStored.length_le
  have hSize := hStored.size
  rcases lineLoop_spec
      ((s.userbuf.store data).buf.length + 1) hStored
      hTyped.content hTail (by omega) with
    ⟨b', tail', hLoop, hTaken⟩
  have hAfter := hTaken.cur hCur.ge
    (hCur.trans_lt (hLength.2.trans_lt (by decide)))
  rw [hCur] at hAfter
  rw [step_of_running h hTyped.left, hLoop]
  refine ⟨tail', ⟨⟨h.running, ?_, ?_⟩, ?_⟩, ?_⟩
  · dsimp only
    rw [h.lines, frames_append newline stream data]
  · dsimp only
    rw [rest_append newline stream data]
    omega
  · dsimp only
    rw [rest_append newline stream data]
    exact hTaken.holds
  · intro hHalf hZero
    apply hTaken.clear
    · rw [List.length_append, ← h.cur]
      exact hHalf
    · exact fun c hc => hZero c (List.mem_of_mem_drop hc)

/- With a newline there, one line too many is handed on. -/
theorem Delivered.nothingBehind
    (h : Delivered s stream tail)
    (hTyped : Typed (stream ++ data))
    (hFits : ReadFits s data)
    (hIntact : Intact (s.step data) (stream ++ data)) :
    NothingBehind s.userbuf data := by
  rcases h.holds.store h.cur hFits with
    ⟨hStored, hCur, hBehind⟩
  have hSize := hStored.size
  have hHanded := hIntact.lines
  rw [step_of_running h hTyped.left] at hHanded
  dsimp only at hHanded
  rw [lineLoop_lines hStored hTyped.content (by omega),
    h.lines, frames_append newline stream data,
    List.append_cancel_left_eq] at hHanded
  have hCount := congrArg List.length hHanded
  rw [length_frames, length_frames, List.count_append]
    at hCount
  unfold NothingBehind
  rw [strchr_eq_none_iff, hBehind]
  exact List.count_eq_zero.mp (by omega)

end

end PeerNet

------------------------------------------------------------
-- Every Fragmentation
------------------------------------------------------------

namespace PeerNet

open Framing UserIobuf InputSession Runs

/- The session after some reads. -/
def InputSession.after
    (reads : List Bytes) : InputSession :=
  foldSteps InputSession.step .start reads

section

variable {reads done more : List Bytes} {data : Bytes}

theorem after_concat
    (done : List Bytes)
    (data : Bytes) :
    InputSession.after (done ++ [data]) =
      (InputSession.after done).step data := by
  unfold InputSession.after
  rw [foldSteps_append]
  rfl

theorem readFits_after
    (hReads :
      AllAllowed InputSession.step ReadFits .start
        (done ++ data :: more)) :
    ReadFits (InputSession.after done) data :=
  (allAllowed_append.mp hReads).2.1

theorem delivered_start :
    Delivered .start [] (List.replicate (userbufSize + 1) 0) where
  running := rfl
  lines := rfl
  cur := rfl
  holds := ⟨rfl, List.length_replicate, by
    rw [List.getLast?_replicate, if_neg (by decide)]⟩

/- The stream up to some read is text as well. -/
theorem typed_done
    (more : List Bytes)
    (hStream : Typed (done ++ more).flatten) :
    Typed done.flatten := by
  rw [List.flatten_append] at hStream
  exact hStream.left

theorem flatten_concat
    (done : List Bytes)
    (data : Bytes) :
    (done ++ [data]).flatten = done.flatten ++ data := by
  rw [List.flatten_append, List.flatten_singleton]

/- The reads before each point of a run. -/
theorem delivered_of_run
    (hReads :
      AllAllowed InputSession.step ReadFits .start reads)
    (hStream : Typed reads.flatten)
    (hBehind : ∀ done data more,
      reads = done ++ data :: more →
        (∃ tail, Delivered (InputSession.after done)
          done.flatten tail) →
          NothingBehind (InputSession.after done).userbuf
            data)
    (hReads' : reads = done ++ more) :
    ∃ tail,
      Delivered (InputSession.after done) done.flatten
        tail := by
  induction done using List.reverseRecOn generalizing more with
  | nil => exact ⟨_, delivered_start⟩
  | append_singleton done data ih =>
      rw [List.append_assoc, List.singleton_append] at hReads'
      have hBefore := ih hReads'
      rcases hBefore with ⟨tail, hDelivered⟩
      have hTyped : Typed (done.flatten ++ data) := by
        rw [← flatten_concat]
        apply typed_done more
        rw [List.append_assoc, List.singleton_append, ← hReads']
        exact hStream
      have hFits :
          ReadFits (InputSession.after done) data := by
        rw [hReads'] at hReads
        exact readFits_after hReads
      rcases hDelivered.step hTyped hFits
          (hBehind done data more hReads' ⟨tail, hDelivered⟩)
        with ⟨tail', hAfter, -⟩
      rw [after_concat, flatten_concat]
      exact ⟨tail', hAfter⟩

end

/-
  Whatever the reads are, after each of them exactly the
  lines so far were handed on if and only if no read found a
  newline in the string behind it.
-/
theorem commands_intact_iff
    {reads : List Bytes}
    (hReads :
      AllAllowed InputSession.step ReadFits .start reads)
    (hStream : Typed reads.flatten) :
    (∀ done more, reads = done ++ more →
      Intact (InputSession.after done) done.flatten) ↔
      ∀ done data more, reads = done ++ data :: more →
        NothingBehind (InputSession.after done).userbuf
          data := by
  constructor
  · intro hIntact done data more hSplit
    have hEach : ∀ done data more,
        reads = done ++ data :: more →
          (∃ tail, Delivered (InputSession.after done)
            done.flatten tail) →
            NothingBehind (InputSession.after done).userbuf
              data := by
      rintro done data more hSplit ⟨tail, hDelivered⟩
      have hConcat : reads = (done ++ [data]) ++ more := by
        rw [List.append_assoc, List.singleton_append]
        exact hSplit
      apply hDelivered.nothingBehind
      · rw [← flatten_concat]
        apply typed_done more
        rw [← hConcat]
        exact hStream
      · rw [hSplit] at hReads
        exact readFits_after hReads
      · rw [← after_concat, ← flatten_concat]
        exact hIntact _ more hConcat
    exact hEach done data more hSplit
      (delivered_of_run hReads hStream hEach hSplit)
  · intro hBehind done more hSplit
    rcases delivered_of_run hReads hStream
        (fun done data more hSplit _ =>
          hBehind done data more hSplit) hSplit with
      ⟨tail, hDelivered⟩
    exact hDelivered.toIntact

/- One command in three pieces. -/
def oneCommand : List Bytes :=
  [[71, 69], [84, 32, 97, 32], [98, 10]]

theorem commands_intact_one :
    (∀ done more, oneCommand = done ++ more →
      Intact (InputSession.after done) done.flatten) ↔
      ∀ done data more, oneCommand = done ++ data :: more →
        NothingBehind (InputSession.after done).userbuf
          data := by
  apply commands_intact_iff
  · refine ⟨?_, ?_, ?_, trivial⟩
    · unfold ReadFits
      decide
    · unfold ReadFits
      decide +kernel
    · unfold ReadFits
      decide +kernel
  · exact ⟨by decide, by decide, by decide⟩

/- A line that leaves room for little else. -/
@[irreducible] def longLine : Bytes :=
  List.replicate 8188 97

/-
  With one of a single byte it fills the buffer; the newline
  that ends them stays at the end of the buffer.
-/
def filledBuffer : Bytes :=
  longLine ++ newline :: [98, newline]

/- The next bytes of a line end just before it. -/
@[irreducible] def runsIntoNewline : Bytes :=
  List.replicate 8187 99

theorem mem_longLine
    {c : UInt8}
    (hMem : c ∈ longLine) :
    c = 97 := by
  rw [longLine] at hMem
  exact List.eq_of_mem_replicate hMem

theorem mem_runsIntoNewline
    {c : UInt8}
    (hMem : c ∈ runsIntoNewline) :
    c = 99 := by
  rw [runsIntoNewline] at hMem
  exact List.eq_of_mem_replicate hMem

theorem length_longLine :
    longLine.length = 8188 := by
  rw [longLine, List.length_replicate]

theorem length_runsIntoNewline :
    runsIntoNewline.length = 8187 := by
  rw [runsIntoNewline, List.length_replicate]

theorem filled_flatten :
    [filledBuffer, runsIntoNewline].flatten =
      longLine ++
        newline :: ([98] ++ newline :: runsIntoNewline) := by
  rw [List.flatten_cons, List.flatten_singleton, filledBuffer,
    List.append_assoc]
  rfl

theorem length_filledBuffer :
    filledBuffer.length = 8191 := by
  rw [filledBuffer, List.length_append, length_longLine]
  rfl

theorem longLine_free :
    0 ∉ longLine ∧ newline ∉ longLine :=
  ⟨fun hMem => absurd (mem_longLine hMem) (by decide),
    fun hMem => absurd (mem_longLine hMem) (by decide)⟩

/- What was typed: a long line, a short one, a third begun. -/
theorem filled_lines :
    split newline [filledBuffer, runsIntoNewline].flatten =
      ([longLine, [98]], runsIntoNewline) := by
  have hSecond : newline ∉ [(98 : UInt8)] := by decide
  have hThird : newline ∉ runsIntoNewline := by
    intro hMem
    exact absurd (mem_runsIntoNewline hMem) (by decide)
  rw [filled_flatten, split_frame longLine_free.2,
    frames_frame hSecond, rest_frame hSecond,
    frames_free hThird, rest_of_free hThird]

theorem filled_typed :
    Typed [filledBuffer, runsIntoNewline].flatten where
  text := by
    rw [filled_flatten]
    simp only [List.mem_append, List.mem_cons,
      List.not_mem_nil, or_false]
    rintro (hMem | hMem | hMem | hMem | hMem)
    · exact longLine_free.1 hMem
    · exact absurd hMem (by decide)
    · exact absurd hMem (by decide)
    · exact absurd hMem (by decide)
    · exact absurd (mem_runsIntoNewline hMem) (by decide)
  lines := by
    rw [frames, filled_lines, List.forall_mem_cons,
      List.forall_mem_singleton, length_longLine]
    decide
  rest := by
    rw [Framing.rest, filled_lines, length_runsIntoNewline]
    decide

/- The buffer when that was read and both lines taken off. -/
def spentBuffer : UserIobuf :=
  lineTaken 2 [98] []
    ([0] ++ leftBehind longLine [98, newline] [0])

theorem filled_stored :
    UserIobuf.createUserbuf.store filledBuffer =
      ⟨longLine ++ newline :: [98, newline] ++ [0], 8191⟩ := by
  unfold UserIobuf.store UserIobuf.createUserbuf
  rw [length_filledBuffer, List.take_zero, List.nil_append,
    List.drop_replicate]
  rfl

theorem filled_after :
    (InputSession.after [filledBuffer]).userbuf =
      spentBuffer := by
  have hTyped : Typed [] :=
    ⟨List.not_mem_nil, nofun, by decide⟩
  have hFirst :
      InBuffer
        (longLine ++ newline :: [98, newline] ++ [0])
        (longLine ++ newline :: [98, newline]) [0] := by
    refine ⟨rfl, ?_, rfl⟩
    rw [List.length_append, List.length_append,
      length_longLine]
    rfl
  have hSecond :
      InBuffer (lineTaken 8191 longLine [98, newline] [0]).buf
        ([98] ++ newline :: []) _ :=
    (takeLine_spec
      (b := ⟨longLine ++ newline :: [98, newline] ++ [0],
        8191⟩) hFirst longLine_free.1).2.1
  have hStart : InputSession.after [] = .start := rfl
  have hStep :=
    step_of_running delivered_start hTyped filledBuffer
  rw [← List.nil_append [filledBuffer], after_concat, hStart,
    hStep]
  have hUserbuf :
      InputSession.start.userbuf = createUserbuf := rfl
  rw [hUserbuf, filled_stored, hFirst.size,
    lineLoop_line hFirst longLine_free.1 longLine_free.2]
  dsimp only
  rw [lineLoop_line hSecond (by decide) (by decide)]
  have hCur :
      (lineTaken 8191 longLine [98, newline] [0]).cur = 2 := by
    rw [lineTaken, length_longLine]
    rfl
  dsimp only
  rw [hCur]
  -- The string in the buffer is empty now.
  rfl

/- The third line is handed on before it ends. -/
theorem line_handed_early :
    ¬ ∀ reads : List Bytes,
      AllAllowed InputSession.step ReadFits .start reads →
        Typed reads.flatten →
          ∀ done more, reads = done ++ more →
            Intact (InputSession.after done)
              done.flatten := by
  intro hClaim
  have hReads :
      AllAllowed InputSession.step ReadFits .start
        [filledBuffer, runsIntoNewline] := by
    have hSecond :
        ReadFits (InputSession.after [filledBuffer])
          runsIntoNewline := by
      unfold ReadFits
      rw [filled_after, length_runsIntoNewline]
      decide
    have hFirst :
        ReadFits (InputSession.after []) filledBuffer := by
      unfold ReadFits
      rw [length_filledBuffer]
      decide
    have hBoth :
        AllAllowed InputSession.step ReadFits .start
          ([filledBuffer] ++ [runsIntoNewline]) :=
      allAllowed_append.mpr
        ⟨⟨hFirst, trivial⟩, hSecond, trivial⟩
    exact hBoth
  have hBehind :=
    (commands_intact_iff hReads filled_typed).mp
      (hClaim _ hReads filled_typed) [filledBuffer]
      runsIntoNewline [] rfl
  rw [filled_after] at hBehind
  revert hBehind
  unfold NothingBehind
  decide +kernel

end PeerNet

------------------------------------------------------------
-- Short Contents
------------------------------------------------------------

namespace PeerNet

open Framing UserIobuf InputSession Runs

/- The buffer is at most half full after every read. -/
def HalfFull
    (s : InputSession)
    (data : Bytes) : Prop :=
  2 * (s.userbuf.cur + data.length) ≤ userbufSize + 1

/- A buffer that is clear behind its text. -/
theorem nothingBehind_of_clear
    {s : InputSession}
    {stream data tail : Bytes}
    (h : Delivered s stream tail)
    (hFits : ReadFits s data)
    (hClear : ∀ c ∈ tail, c = 0) :
    NothingBehind s.userbuf data := by
  unfold NothingBehind
  rw [(h.holds.store h.cur hFits).2.2, strchr_eq_none_iff]
  intro hMem
  have hTail := List.mem_of_mem_drop
    ((List.takeWhile_prefix _).mem hMem)
  exact absurd (hClear newline hTail) (by decide)

/-
  Half a buffer is moved clear of what it leaves behind, so
  reads that fill no more than that are always safe.
-/
theorem commands_intact_of_half
    {reads done more : List Bytes}
    (hReads :
      AllAllowed InputSession.step
        (fun s data => ReadFits s data ∧ HalfFull s data)
        .start reads)
    (hStream : Typed reads.flatten)
    (hSplit : reads = done ++ more) :
    Intact (InputSession.after done) done.flatten := by
  have hClear :
      ∃ tail,
        Delivered (InputSession.after done) done.flatten
            tail ∧
          ∀ c ∈ tail, c = 0 := by
    induction done using List.reverseRecOn
      generalizing more with
    | nil =>
        exact ⟨_, delivered_start,
          fun c hc => List.eq_of_mem_replicate hc⟩
    | append_singleton done data ih =>
        rw [List.append_assoc, List.singleton_append]
          at hSplit
        rcases ih hSplit with ⟨tail, hBefore, hTail⟩
        have hTyped : Typed (done.flatten ++ data) := by
          rw [← flatten_concat]
          apply typed_done more
          rw [List.append_assoc, List.singleton_append,
            ← hSplit]
          exact hStream
        have hAllowed :
            ReadFits (InputSession.after done) data ∧
              HalfFull (InputSession.after done) data := by
          rw [hSplit] at hReads
          exact (allAllowed_append.mp hReads).2.1
        have hNone :=
          nothingBehind_of_clear hBefore hAllowed.1 hTail
        rcases hBefore.step hTyped hAllowed.1 hNone with
          ⟨tail', hAfter, hStays⟩
        rw [after_concat, flatten_concat]
        exact ⟨tail', hAfter, hStays hAllowed.2 hTail⟩
  rcases hClear with ⟨tail, hDelivered, -⟩
  exact hDelivered.toIntact

end PeerNet
