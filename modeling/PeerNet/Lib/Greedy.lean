import Mathlib.Data.List.Nodup
import Mathlib.Logic.Function.Basic

/-
  Handing out workers first come, first served.

  The jobs are gone through once. Each names the workers it
  would take, in order, and gets the first of them that is
  free, who is then free no longer. `assign` lists the pairs
  made. No worker is in two of them, and no job left without
  a worker names one who is still free in the end.

  Key definitions include:
    * `Greedy.assign`

  Key rules include:
    * `Greedy.of_mem_assign`
    * `Greedy.assign_congr`
    * `Greedy.unique_of_assign`
    * `Greedy.taken_of_unassigned`
-/

------------------------------------------------------------
-- The Pass
------------------------------------------------------------

namespace Greedy

variable {ι κ : Type*} [DecidableEq κ]

/- The pairs that one pass over the jobs makes. -/
def assign
    (wants : ι → List κ) :
    (κ → Bool) → List ι → List (ι × κ)
| _, [] => []
| free, i :: rest =>
    match (wants i).find? free with
    | none => assign wants free rest
    | some k =>
        (i, k) ::
          assign wants (Function.update free k false) rest

section

variable {wants wants' : ι → List κ} {free : κ → Bool}
variable {jobs rest : List ι} {i j : ι} {k : κ}

/- A job that finds nobody is passed over. -/
theorem assign_none
    (h : (wants i).find? free = none) :
    assign wants free (i :: rest) =
      assign wants free rest := by
  rw [assign, h]

/- A job that finds somebody takes him. -/
theorem assign_some
    (h : (wants i).find? free = some k) :
    assign wants free (i :: rest) =
      (i, k) ::
        assign wants (Function.update free k false)
          rest := by
  rw [assign, h]

/- Only what the jobs of the pass want matters. -/
theorem assign_congr
    (h : ∀ i ∈ jobs, wants i = wants' i) :
    assign wants free jobs = assign wants' free jobs := by
  induction jobs generalizing free with
  | nil => rfl
  | cons i rest ih =>
      have hRest : ∀ j ∈ rest, wants j = wants' j :=
        fun j hj => h j (List.mem_cons_of_mem _ hj)
      have hHere := h i (by simp)
      cases hFind : (wants i).find? free with
      | none =>
          rw [assign_none hFind,
            assign_none (hHere ▸ hFind), ih hRest]
      | some k =>
          rw [assign_some hFind,
            assign_some (hHere ▸ hFind), ih hRest]

/- Who is not free when a worker is taken was not before. -/
theorem free_of_update
    {l : κ}
    (h : Function.update free k false l = true) :
    l ≠ k ∧ free l = true := by
  by_cases hl : l = k
  · subst hl
    simp at h
  · rw [Function.update_of_ne hl] at h
    exact ⟨hl, h⟩

/- A pair is made of a job and a free worker it wants. -/
theorem of_mem_assign
    (h : (i, k) ∈ assign wants free jobs) :
    i ∈ jobs ∧ k ∈ wants i ∧ free k = true := by
  induction jobs generalizing free with
  | nil => cases h
  | cons j rest ih =>
      cases hFind : (wants j).find? free with
      | none =>
          rw [assign_none hFind] at h
          rcases ih h with ⟨hMem, hRest⟩
          exact ⟨List.mem_cons_of_mem _ hMem, hRest⟩
      | some l =>
          rw [assign_some hFind, List.mem_cons] at h
          rcases h with hHere | hLater
          · cases hHere
            exact ⟨by simp, List.mem_of_find?_eq_some hFind,
              List.find?_some hFind⟩
          · rcases ih hLater with ⟨hMem, hWants, hFree⟩
            exact ⟨List.mem_cons_of_mem _ hMem, hWants,
              (free_of_update hFree).2⟩

------------------------------------------------------------
-- Nobody Twice
------------------------------------------------------------

/- Each job gets at most one worker. -/
theorem nodup_jobs
    (hJobs : jobs.Nodup) :
    ((assign wants free jobs).map Prod.fst).Nodup := by
  induction jobs generalizing free with
  | nil => exact List.nodup_nil
  | cons i rest ih =>
      rcases List.nodup_cons.mp hJobs with ⟨hNew, hRest⟩
      cases hFind : (wants i).find? free with
      | none =>
          rw [assign_none hFind]
          exact ih hRest
      | some k =>
          rw [assign_some hFind, List.map_cons,
            List.nodup_cons]
          refine ⟨fun hMem => ?_, ih hRest⟩
          rcases List.mem_map.mp hMem with
            ⟨⟨j, l⟩, hPair, rfl⟩
          exact hNew (of_mem_assign hPair).1

/- No worker gets two jobs. -/
theorem unique_of_assign
    (hI : (i, k) ∈ assign wants free jobs)
    (hJ : (j, k) ∈ assign wants free jobs) :
    i = j := by
  induction jobs generalizing free with
  | nil => cases hI
  | cons x rest ih =>
      cases hFind : (wants x).find? free with
      | none =>
          rw [assign_none hFind] at hI hJ
          exact ih hI hJ
      | some l =>
          have hTaken :
              ∀ y, (y, l) ∉ assign wants
                (Function.update free l false) rest := by
            intro y hy
            exact (free_of_update
              (of_mem_assign hy).2.2).1 rfl
          rw [assign_some hFind, List.mem_cons] at hI hJ
          rcases hI with hI | hI
          · cases hI
            rcases hJ with hJ | hJ
            · cases hJ
              rfl
            · exact absurd hJ (hTaken j)
          · rcases hJ with hJ | hJ
            · cases hJ
              exact absurd hI (hTaken i)
            · exact ih hI hJ

------------------------------------------------------------
-- Nobody Left
------------------------------------------------------------

/- Whom a job without a worker wants is taken. -/
theorem taken_of_unassigned
    (hMem : i ∈ jobs)
    (hNone : ∀ l, (i, l) ∉ assign wants free jobs)
    (hWants : k ∈ wants i)
    (hFree : free k = true) :
    ∃ j, (j, k) ∈ assign wants free jobs := by
  induction jobs generalizing free with
  | nil => cases hMem
  | cons x rest ih =>
      cases hFind : (wants x).find? free with
      | none =>
          rw [assign_none hFind] at hNone ⊢
          rcases List.mem_cons.mp hMem with rfl | hRest
          · have hBusy :=
              List.find?_eq_none.mp hFind k hWants
            exact absurd hFree hBusy
          · exact ih hRest hNone hFree
      | some l =>
          rw [assign_some hFind] at hNone ⊢
          by_cases hSame : k = l
          · subst hSame
            exact ⟨x, by simp⟩
          have hStill :
              Function.update free l false k = true := by
            rw [Function.update_of_ne hSame]
            exact hFree
          rcases List.mem_cons.mp hMem with rfl | hRest
          · exact absurd (by simp) (hNone l)
          · rcases ih hRest
              (fun m hm =>
                hNone m (List.mem_cons_of_mem _ hm))
              hStill with ⟨j, hj⟩
            exact ⟨j, List.mem_cons_of_mem _ hj⟩

end

end Greedy
