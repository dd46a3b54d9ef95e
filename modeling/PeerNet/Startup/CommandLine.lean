import PeerNet.Startup.PeerList

/-
  The options of a peer.

  Of options with the same letter the last one counts, and
  what is not set keeps its default. An argument that is too
  long for its array is the only thing on a command line that
  overflows one.

  Main declarations:
    * `CommandLine.withSettings`
    * `parseOptions_written`
    * `parseOptions_overflow`
    * `parseOptions_untouched`
-/

------------------------------------------------------------
-- Written Options
------------------------------------------------------------

namespace PeerNet

open Scanf Getopt

/- An option and its argument. -/
abbrev Setting := UInt8 × Bytes

/- Its argument is one that `applyOption` takes. -/
structure Setting.Accepted
    (setting : Setting) : Prop where
  fits :
    setting.1 = 112 ∨ setting.1 = 99 ∨ setting.1 = 102 →
      setting.2.length < btFilenameLen
  debug : setting.1 = 100 → setDebug setting.2 ≠ -1

/- The configuration with some options set. -/
def CommandLine.withSettings
    (settings : List Setting)
    (c : CommandLine) : CommandLine :=
  { c with
    config :=
      { c.config with
        chunkFile :=
          (lastOf 102 settings).getD c.config.chunkFile
        hasChunkFile :=
          (lastOf 99 settings).getD c.config.hasChunkFile
        maxConn :=
          ((lastOf 109 settings).map atoi).getD
            c.config.maxConn
        identity :=
          ((lastOf 105 settings).map
            (toShort ∘ atoi)).getD c.config.identity }
    peerListFile :=
      (lastOf 112 settings).getD c.peerListFile }

section

variable {letter : UInt8} {setting : Setting}
variable {settings : List Setting} {arguments : List Argument}
variable {c : CommandLine}

/- The letters that take an argument. -/
theorem letter_of_valued
    (hKind : kindOf btOptstring letter = .valued) :
    letter = 112 ∨ letter = 99 ∨ letter = 102 ∨
      letter = 109 ∨ letter = 105 ∨ letter = 100 := by
  by_contra hNone
  simp only [not_or] at hNone
  rcases hNone with ⟨hP, hC, hF, hM, hI, hD⟩
  by_cases hHelp : letter = 104
  · rw [hHelp] at hKind
    exact absurd hKind (by decide)
  by_cases hColon : letter = 58
  · rw [hColon] at hKind
    exact absurd hKind (by decide)
  have hOther :
      ∀ {o : UInt8}, ¬ letter = o → ¬ o = letter :=
    fun h hSame => h hSame.symm
  simp [btOptstring, kindOf, hOther hP, hOther hC, hOther hF,
    hOther hM, hOther hI, hOther hD, hOther hHelp,
    hOther hColon] at hKind

/- One option that is accepted. -/
theorem applyOption_accepted
    (hKind : kindOf btOptstring setting.1 = .valued)
    (hAccepted : setting.Accepted)
    (c : CommandLine) :
    applyOption c (.valued setting.1 setting.2) =
      .ok (c.withSettings [setting]) := by
  rcases setting with ⟨letter, arg⟩
  have hFits := hAccepted.fits
  have hDebug := hAccepted.debug
  have hCopy :
      letter = 112 ∨ letter = 99 ∨ letter = 102 →
        strcpy arg = .ok arg := by
    intro hLetter
    unfold strcpy
    rw [if_pos (hFits hLetter)]
  rcases letter_of_valued hKind with
    rfl | rfl | rfl | rfl | rfl | rfl
  all_goals simp [applyOption, CommandLine.withSettings, lastOf,
    hCopy, Except.map]
  exact hDebug rfl

/- Setting options in two steps. -/
theorem CommandLine.withSettings_cons
    (setting : Setting)
    (settings : List Setting)
    (c : CommandLine) :
    (c.withSettings [setting]).withSettings settings =
      c.withSettings (setting :: settings) := by
  have hLast :
      ∀ {α : Type} (letter : UInt8) (f : Bytes → α)
        (start : α),
        ((lastOf letter settings).map f).getD
            (((lastOf letter [setting]).map f).getD start) =
          ((lastOf letter (setting :: settings)).map f).getD
            start := by
    intro α letter f start
    simp only [lastOf]
    cases lastOf letter settings <;> simp
  have hText :
      ∀ (letter : UInt8) (start : Bytes),
        (lastOf letter settings).getD
            ((lastOf letter [setting]).getD start) =
          (lastOf letter (setting :: settings)).getD start := by
    intro letter start
    simpa using hLast letter id start
  unfold CommandLine.withSettings
  simp only [hText, hLast]

/- A written command line sets what it says. -/
theorem parseOptions_written
    (hPlain :
      ∀ argument ∈ arguments, argument.Plain (kindOf btOptstring))
    (hAccepted :
      ∀ setting ∈ arguments.filterMap Argument.setting,
        Setting.Accepted setting)
    (c : CommandLine) :
    parseOptions (arguments.flatMap Argument.args) c =
      .ok (c.withSettings (arguments.filterMap Argument.setting)) := by
  have hValued :
      ∀ setting ∈ arguments.filterMap Argument.setting,
        kindOf btOptstring setting.1 = .valued := by
    intro setting hIn
    rcases List.mem_filterMap.mp hIn with
      ⟨argument, hArgument, hSet⟩
    have hKind := hPlain argument hArgument
    cases argument with
    | apart letter arg =>
        cases hSet
        exact hKind.1
    | joined letter arg =>
        cases hSet
        exact hKind.1
    | operand text => cases hSet
  have hFold :
      ∀ (settings : List Setting) (c : CommandLine),
        (∀ setting ∈ settings,
          kindOf btOptstring setting.1 = .valued) →
        (∀ setting ∈ settings, Setting.Accepted setting) →
          (settings.map fun setting =>
              Found.valued setting.1 setting.2).foldlM
              applyOption c =
            .ok (c.withSettings settings) := by
    intro settings
    induction settings with
    | nil => exact fun c _ _ => rfl
    | cons setting settings ih =>
        intro c hKinds hAll
        rw [List.forall_mem_cons] at hKinds hAll
        rw [List.map_cons, List.foldlM_cons,
          applyOption_accepted hKinds.1 hAll.1]
        exact (ih _ hKinds.2 hAll.2).trans
          (by rw [CommandLine.withSettings_cons])
  unfold parseOptions
  rw [options_written hPlain]
  exact hFold _ c hValued hAccepted

end

end PeerNet

------------------------------------------------------------
-- Any Command Line
------------------------------------------------------------

namespace PeerNet

open Scanf Getopt

/- No option touches the peers, the chunks or the uploads. -/
structure CommandLine.Untouched
    (c : CommandLine) : Prop extends
    BtConfig.Unused c.config where
  peers : c.config.peers = []

section

variable {args : List Bytes} {found : Found}
variable {c c' : CommandLine} {arg : Bytes} {path : Path}
variable {stop : Stop}

theorem strcpy_ok
    (hCopy : strcpy arg = .ok path) :
    path = arg ∧ arg.length < btFilenameLen := by
  unfold strcpy at hCopy
  split at hCopy
  · next hFits => exact ⟨(Except.ok.inj hCopy).symm, hFits⟩
  · cases hCopy

theorem strcpy_error
    (hCopy : strcpy arg = .error stop) :
    btFilenameLen ≤ arg.length := by
  unfold strcpy at hCopy
  split at hCopy
  · cases hCopy
  · next hLong => exact Nat.le_of_not_lt hLong

/- A path that is copied, if it fits. -/
theorem map_strcpy_ok
    {f : Path → CommandLine}
    (hMap : (strcpy arg).map f = .ok c') :
    c' = f arg ∧ arg.length < btFilenameLen := by
  cases hCopy : strcpy arg with
  | error stop =>
      rw [hCopy] at hMap
      cases hMap
  | ok path =>
      rcases strcpy_ok hCopy with ⟨rfl, hFits⟩
      rw [hCopy] at hMap
      exact ⟨(Except.ok.inj hMap).symm, hFits⟩

theorem applyOption_untouched
    (hClean : c.Untouched)
    (hApply : applyOption c found = .ok c') :
    c'.Untouched := by
  unfold applyOption at hApply
  split at hApply
  · split at hApply <;> cases hApply
  · split at hApply
    · split at hApply
      · cases hApply
      · cases hApply
        exact hClean
    split at hApply
    · rcases map_strcpy_ok hApply with ⟨rfl, hFits⟩
      exact { hClean with }
    split at hApply
    · rcases map_strcpy_ok hApply with ⟨rfl, hFits⟩
      exact { hClean with hasChunkFile := hFits }
    split at hApply
    · rcases map_strcpy_ok hApply with ⟨rfl, hFits⟩
      exact { hClean with chunkFile := hFits }
    split at hApply
    · cases hApply
      exact { hClean with }
    split at hApply
    · cases hApply
      exact { hClean with }
    · cases hApply
  · cases hApply

/- Only an argument that does not fit overflows. -/
theorem applyOption_overflow
    (hApply : applyOption c found = .error .overflow) :
    ∃ letter optarg, found = .valued letter optarg ∧
      btFilenameLen ≤ optarg.length := by
  have hCopy :
      ∀ {optarg : Bytes} {f : Path → CommandLine},
        (strcpy optarg).map f = .error .overflow →
          btFilenameLen ≤ optarg.length := by
    intro optarg f hMap
    cases hCopied : strcpy optarg with
    | error stop => exact strcpy_error hCopied
    | ok path =>
        rw [hCopied] at hMap
        cases hMap
  unfold applyOption at hApply
  split at hApply
  · split at hApply <;> cases hApply
  · next letter optarg =>
      refine ⟨letter, optarg, rfl, ?_⟩
      split at hApply
      · split at hApply <;> cases hApply
      split at hApply
      · exact hCopy hApply
      split at hApply
      · exact hCopy hApply
      split at hApply
      · exact hCopy hApply
      split at hApply
      · cases hApply
      split at hApply
      · cases hApply
      · cases hApply
  · cases hApply

/- What the options leave alone. -/
theorem parseOptions_untouched
    (hClean : c.Untouched)
    (hParse : parseOptions args c = .ok c') :
    c'.Untouched := by
  unfold parseOptions at hParse
  generalize options (kindOf btOptstring) none args = found
    at hParse
  induction found generalizing c with
  | nil =>
      cases hParse
      exact hClean
  | cons first found ih =>
      rw [List.foldlM_cons] at hParse
      cases hApply : applyOption c first with
      | error stop =>
          rw [hApply] at hParse
          cases hParse
      | ok next =>
          rw [hApply] at hParse
          exact ih (applyOption_untouched hClean hApply) hParse

theorem parseOptions_overflow
    (hParse : parseOptions args c = .error .overflow) :
    ∃ arg ∈ args, btFilenameLen ≤ arg.length := by
  have hFound :
      ∃ letter optarg,
        Found.valued letter optarg ∈
            options (kindOf btOptstring) none args ∧
          btFilenameLen ≤ optarg.length := by
    unfold parseOptions at hParse
    generalize options (kindOf btOptstring) none args = found
      at hParse ⊢
    induction found generalizing c with
    | nil => cases hParse
    | cons first found ih =>
        rw [List.foldlM_cons] at hParse
        cases hApply : applyOption c first with
        | error stop =>
            rw [hApply] at hParse
            cases hParse
            rcases applyOption_overflow hApply with
              ⟨letter, optarg, rfl, hLong⟩
            exact ⟨letter, optarg, List.mem_cons_self, hLong⟩
        | ok next =>
            rw [hApply] at hParse
            rcases ih hParse with
              ⟨letter, optarg, hIn, hLong⟩
            exact ⟨letter, optarg,
              List.mem_cons_of_mem first hIn, hLong⟩
  rcases hFound with ⟨letter, optarg, hIn, hLong⟩
  rcases length_of_options hIn with ⟨arg, hArg, hLength⟩
  exact ⟨arg, hArg, Nat.le_trans hLong hLength⟩

theorem btInit_untouched
    (h : Host) :
    (testingConfig h (btInit h)).Untouched := by
  have hInit : (btInit h).Untouched :=
    { peers := rfl
      download := rfl
      upload := rfl
      empty := fun _ => rfl
      curDownload := rfl
      chunkFile := Nat.succ_pos _
      hasChunkFile := Nat.succ_pos _ }
  have hChunks : chunkfileName.length < btFilenameLen := by
    decide
  have hHas : haschunksName.length < btFilenameLen := by
    decide
  unfold testingConfig
  split
  · exact
      { hInit with
        chunkFile := hChunks
        hasChunkFile := hHas }
  · exact hInit

end

end PeerNet
