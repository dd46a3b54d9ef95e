import Mathlib.Data.List.Infix
import Mathlib.Tactic.Common

/-
  Streams that a separator cuts into frames.

  `feed` takes one item: the separator ends the frame, any
  other item goes to the unfinished rest. `split` feeds a
  whole stream, and since it is a fold, cutting a stream into
  pieces makes no difference to its frames.

  Key definitions include:
    * `Framing.feed`
    * `Framing.frames`
    * `Framing.rest`

  Key rules include:
    * `Framing.split_frame`
    * `Framing.split_append`
    * `Framing.length_frames`
    * `Framing.rest_prefix`
-/

------------------------------------------------------------
-- Frames
------------------------------------------------------------

namespace Framing

variable {α : Type*} [DecidableEq α]

/- One more item behind some frames and an unfinished rest. -/
def feed
    (sep : α)
    (s : List (List α) × List α)
    (a : α) : List (List α) × List α :=
  if a = sep then (s.1 ++ [s.2], []) else (s.1, s.2 ++ [a])

/- The frames of a stream, and what follows the last one. -/
def split
    (sep : α)
    (stream : List α) : List (List α) × List α :=
  stream.foldl (feed sep) ([], [])

/- What each separator of the stream ends. -/
def frames
    (sep : α)
    (stream : List α) : List (List α) :=
  (split sep stream).1

/- What no separator has ended yet. -/
def rest
    (sep : α)
    (stream : List α) : List α :=
  (split sep stream).2

section

variable {sep : α} {s t line more : List α}

@[simp] theorem feed_sep
    (sep : α)
    (done : List (List α))
    (r : List α) :
    feed sep (done, r) sep = (done ++ [r], []) :=
  if_pos rfl

theorem feed_other
    {a : α}
    (h : a ≠ sep)
    (done : List (List α))
    (r : List α) :
    feed sep (done, r) a = (done, r ++ [a]) :=
  if_neg h

/- Earlier frames stay in front. -/
theorem foldl_feed
    (done : List (List α))
    (r s : List α) :
    s.foldl (feed sep) (done, r) =
      (done ++ (s.foldl (feed sep) ([], r)).1,
        (s.foldl (feed sep) ([], r)).2) := by
  induction s generalizing done r with
  | nil => simp
  | cons a s ih =>
      rw [List.foldl_cons, List.foldl_cons]
      by_cases hSep : a = sep
      · rw [hSep, feed_sep, feed_sep, ih, ih ([] ++ [r]),
          List.nil_append, List.append_assoc]
      · rw [feed_other hSep, feed_other hSep]
        exact ih done (r ++ [a])

/- Without a separator everything is unfinished. -/
theorem foldl_feed_free
    (hFree : sep ∉ s)
    (done : List (List α))
    (r : List α) :
    s.foldl (feed sep) (done, r) = (done, r ++ s) := by
  induction s generalizing r with
  | nil => simp
  | cons a s ih =>
      rw [List.mem_cons, not_or] at hFree
      rw [List.foldl_cons, feed_other (Ne.symm hFree.1),
        ih hFree.2, List.append_assoc, List.singleton_append]

theorem split_free
    (hFree : sep ∉ s) :
    split sep s = ([], s) :=
  foldl_feed_free hFree [] []

/- The first separator ends the first frame. -/
theorem split_frame
    (hFree : sep ∉ line)
    (more : List α) :
    split sep (line ++ sep :: more) =
      (line :: frames sep more, rest sep more) := by
  unfold frames rest split
  rw [List.foldl_append, foldl_feed_free hFree,
    List.foldl_cons, feed_sep, foldl_feed]
  simp

theorem frames_free
    (hFree : sep ∉ s) :
    frames sep s = [] := by
  rw [frames, split_free hFree]

theorem rest_of_free
    (hFree : sep ∉ s) :
    rest sep s = s := by
  rw [rest, split_free hFree]

theorem frames_frame
    (hFree : sep ∉ line)
    (more : List α) :
    frames sep (line ++ sep :: more) =
      line :: frames sep more := by
  rw [frames, split_frame hFree]

theorem rest_frame
    (hFree : sep ∉ line)
    (more : List α) :
    rest sep (line ++ sep :: more) = rest sep more := by
  rw [rest, split_frame hFree]

/- The unfinished rest has no separator. -/
theorem rest_free
    (sep : α)
    (s : List α) :
    sep ∉ rest sep s := by
  induction s using List.reverseRecOn with
  | nil => exact List.not_mem_nil
  | append_singleton s a ih =>
      unfold rest split at ih ⊢
      rw [List.foldl_concat, feed]
      split
      · exact List.not_mem_nil
      · next hOther =>
          rw [List.mem_append, List.mem_singleton, not_or]
          exact ⟨ih, Ne.symm hOther⟩

/- A stream goes on where its beginning left off. -/
theorem split_append
    (sep : α)
    (s t : List α) :
    split sep (s ++ t) =
      (frames sep s ++ frames sep (rest sep s ++ t),
        rest sep (rest sep s ++ t)) := by
  have hRest :
      split sep (rest sep s ++ t) =
        t.foldl (feed sep) ([], rest sep s) := by
    rw [split, List.foldl_append,
      foldl_feed_free (rest_free sep s), List.nil_append]
  have hFrames := congrArg Prod.fst hRest
  have hEnd := congrArg Prod.snd hRest
  rw [split, List.foldl_append]
  refine (foldl_feed (frames sep s) (rest sep s) t).trans ?_
  rw [← hFrames, ← hEnd]
  rfl

theorem frames_append
    (sep : α)
    (s t : List α) :
    frames sep (s ++ t) =
      frames sep s ++ frames sep (rest sep s ++ t) := by
  rw [frames, split_append]

theorem rest_append
    (sep : α)
    (s t : List α) :
    rest sep (s ++ t) = rest sep (rest sep s ++ t) := by
  rw [rest, split_append]

/- There are as many frames as separators. -/
theorem length_frames
    (sep : α)
    (s : List α) :
    (frames sep s).length = s.count sep := by
  induction s using List.reverseRecOn with
  | nil => rfl
  | append_singleton s a ih =>
      unfold frames split at ih ⊢
      rw [List.foldl_concat, feed, List.count_append, ← ih]
      split
      · next hSep => simp [hSep]
      · next hOther => simp [hOther]

/- The rest is the end of the stream. -/
theorem rest_suffix
    (sep : α)
    (s : List α) :
    rest sep s <:+ s := by
  induction s using List.reverseRecOn with
  | nil => exact List.suffix_refl _
  | append_singleton s a ih =>
      unfold rest split at ih ⊢
      rw [List.foldl_concat, feed]
      split
      · exact List.nil_suffix
      · rcases ih with ⟨front, hFront⟩
        refine ⟨front, ?_⟩
        rw [← List.append_assoc, hFront]

/- A rest goes on as a frame, or as the rest. -/
theorem rest_prefix
    (sep : α)
    (s t : List α) :
    (∃ line ∈ frames sep (s ++ t), rest sep s <+: line) ∨
      rest sep s <+: rest sep (s ++ t) := by
  induction t using List.reverseRecOn with
  | nil =>
      right
      rw [List.append_nil]
  | append_singleton t a ih =>
      rw [← List.append_assoc]
      unfold frames rest split at ih ⊢
      rw [List.foldl_concat, feed]
      rcases ih with ⟨line, hLine, hPrefix⟩ | hPrefix
      · left
        refine ⟨line, ?_, hPrefix⟩
        split
        · exact List.mem_append_left _ hLine
        · exact hLine
      · split
        · left
          exact ⟨_, List.mem_append_right _
            List.mem_cons_self, hPrefix⟩
        · right
          exact hPrefix.trans (List.prefix_append _ _)

end

end Framing
