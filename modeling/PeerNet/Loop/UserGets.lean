import PeerNet.Model.UserCommand

/-
  Which lines are user GETs.

  A line asks for a chunk file and an output file if it is
  the letters of `GET` and two words, each ended by white
  space, by the end of the line or by having 120 bytes.
  `handle_user_input` runs these requests and no others.

  Main declarations:
    * `AsksFor`
    * `handleUserInput_asked`
    * `user_gets_iff`
-/

------------------------------------------------------------
-- User GETs
------------------------------------------------------------

namespace PeerNet

open Scanf

/- The line is a user GET with these two names. -/
def AsksFor
    (line chunkf outf : Bytes) : Prop :=
  ∃ gap gap' rest,
    line =
        getLiteral ++
          (gap ++ (chunkf ++ (gap' ++ (outf ++ rest)))) ∧
      (∀ c ∈ gap ++ gap', isSpace c = true) ∧
        WordCut wordWidth chunkf (gap' ++ (outf ++ rest)) ∧
          WordCut wordWidth outf rest

section

variable {line chunkf outf : Bytes} {result : Int}

theorem scanCommand_of_asksFor
    (h : AsksFor line chunkf outf) :
    scanCommand line = (2, chunkf, outf) := by
  rcases h with ⟨gap, gap', rest, rfl, hGaps, hChunk, hOut⟩
  have hFirst :
      scanWordMax wordWidth
          (gap ++ (chunkf ++ (gap' ++ (outf ++ rest)))) =
        .value chunkf (gap' ++ (outf ++ rest)) := by
    apply (scanWordMax_iff (by decide)).mpr
    exact ⟨gap, rfl,
      fun c hc => hGaps c (List.mem_append_left _ hc), hChunk⟩
  have hSecond :
      scanWordMax wordWidth (gap' ++ (outf ++ rest)) =
        .value outf rest := by
    apply (scanWordMax_iff (by decide)).mpr
    exact ⟨gap', rfl,
      fun c hc => hGaps c (List.mem_append_right _ hc), hOut⟩
  unfold scanCommand
  rw [scanLiteral_iff.mpr rfl]
  dsimp only
  rw [hFirst]
  dsimp only
  rw [hSecond]

/- An output name is only found in a user GET. -/
theorem asksFor_of_scanCommand
    (hScan : scanCommand line = (result, chunkf, outf))
    (hOut : 0 < outf.length) :
    AsksFor line chunkf outf := by
  have hNone : ∀ {r : Int} {c : Bytes},
      (r, c, ([] : Bytes)) ≠ (result, chunkf, outf) := by
    intro r c hIs
    cases hIs
    exact absurd hOut (Nat.lt_irrefl 0)
  unfold scanCommand at hScan
  cases hLiteral : scanLiteral getLiteral line with
  | eof =>
      rw [hLiteral] at hScan
      exact absurd hScan hNone
  | mismatch rest =>
      rw [hLiteral] at hScan
      exact absurd hScan hNone
  | value u text =>
  rw [hLiteral] at hScan
  dsimp only at hScan
  rcases scanWordMax_cases wordWidth text with
    hFirst | ⟨word, text', hFirst⟩
  · rw [hFirst] at hScan
    exact absurd hScan hNone
  rw [hFirst] at hScan
  dsimp only at hScan
  rcases scanWordMax_cases wordWidth text' with
    hSecond | ⟨word', rest, hSecond⟩
  · rw [hSecond] at hScan
    exact absurd hScan hNone
  rw [hSecond] at hScan
  simp only [Prod.mk.injEq] at hScan
  rcases hScan with ⟨_, rfl, rfl⟩
  rcases (scanWordMax_iff (by decide)).mp hFirst with
    ⟨gap, rfl, hGap, hChunk⟩
  rcases (scanWordMax_iff (by decide)).mp hSecond with
    ⟨gap', rfl, hGap', hCut⟩
  refine ⟨gap, gap', rest, scanLiteral_iff.mp hLiteral, ?_,
    hChunk, hCut⟩
  intro c hc
  rcases List.mem_append.mp hc with hc | hc
  · exact hGap c hc
  · exact hGap' c hc

/- The names of a user GET fit their buffers of 128 bytes. -/
theorem AsksFor.fits
    (h : AsksFor line chunkf outf) :
    chunkf.length < 128 ∧ outf.length < 128 := by
  rcases h with ⟨_, _, _, _, _, hChunk, hOut⟩
  have hWidth : wordWidth = 120 := rfl
  have hChunkFits := hChunk.fits
  have hOutFits := hOut.fits
  omega

theorem handleUserInput_asked
    (env : Env)
    (h : AsksFor line chunkf outf) :
    handleUserInput env line =
      processUserGet env chunkf outf := by
  have hSome : 0 < outf.length := by
    rcases h with ⟨_, _, _, _, _, _, hOut⟩
    exact List.length_pos_iff.mpr hOut.whole.some
  unfold handleUserInput
  rw [scanCommand_of_asksFor h]
  dsimp only
  rw [if_pos (by decide), if_pos hSome]

theorem handleUserInput_other
    (env : Env)
    (h : ∀ chunkf outf, ¬ AsksFor line chunkf outf) :
    handleUserInput env line = pure () := by
  rcases hScan : scanCommand line with ⟨result, chunkf, outf⟩
  unfold handleUserInput
  rw [hScan]
  dsimp only
  split
  · split
    · next hOut =>
        exact absurd (asksFor_of_scanCommand hScan hOut)
          (h chunkf outf)
    · rfl
  · rfl

end

/-
  A line starts a user GET if and only if it asks for one,
  with the names it asks for, which are unique and fit; every
  other line does nothing.
-/
theorem user_gets_iff
    (env : Env)
    (line : Bytes) :
    (∃ chunkf outf,
      (∀ c o, AsksFor line c o ↔ c = chunkf ∧ o = outf) ∧
        chunkf.length < 128 ∧ outf.length < 128 ∧
          handleUserInput env line =
            processUserGet env chunkf outf) ∨
      (∀ c o, ¬ AsksFor line c o) ∧
        handleUserInput env line = pure () := by
  by_cases hSome : ∃ c o, AsksFor line c o
  · left
    rcases hSome with ⟨chunkf, outf, hAsks⟩
    refine ⟨chunkf, outf, ?_, hAsks.fits.1, hAsks.fits.2,
      handleUserInput_asked env hAsks⟩
    intro c o
    constructor
    · intro hOther
      have hBoth :=
        (scanCommand_of_asksFor hOther).symm.trans
          (scanCommand_of_asksFor hAsks)
      simp only [Prod.mk.injEq, true_and] at hBoth
      exact hBoth
    · rintro ⟨rfl, rfl⟩
      exact hAsks
  · right
    have hNone : ∀ c o, ¬ AsksFor line c o :=
      fun c o hAsks => hSome ⟨c, o, hAsks⟩
    exact ⟨hNone, handleUserInput_other env hNone⟩

end PeerNet
