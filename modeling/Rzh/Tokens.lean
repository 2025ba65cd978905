import Mathlib.Data.List.TakeWhile

/-!
# Maximal runs

A list is cut into its maximal runs of elements that are no gaps, whatever a gap is. Two scans, one over
the gap in front of a run and one over the run, find them one after the other.
-/
namespace Tokens

variable {α : Type} {gap : α → Bool} {s run rest : List α} {runs : List (List α)}

/-- The maximal runs of `s`, in order: behind a run the list ends or goes on with a gap. -/
inductive Runs (gap : α → Bool) : List α → List (List α) → Prop where
  | blank {s : List α} (h : ∀ c ∈ s, gap c = true) : Runs gap s []
  | run {front run rest : List α} {runs : List (List α)} (hfront : ∀ c ∈ front, gap c = true)
    (hne : run ≠ []) (hrun : ∀ c ∈ run, gap c = false) (hrest : ∀ c ∈ rest.head?, gap c = true)
    (h : Runs gap rest runs) : Runs gap (front ++ run ++ rest) (run :: runs)

/-- The scan over a gap. -/
def skip (gap : α → Bool) (s : List α) : List α := s.dropWhile gap

/-- The scan over a run. -/
def scanPast (gap : α → Bool) (s : List α) : List α := s.dropWhile fun c => !gap c

theorem dropWhile_append_stop {p : α → Bool} {front : List α} (hfront : ∀ c ∈ front, p c = true)
    (hrest : ∀ c ∈ rest.head?, p c = false) : (front ++ rest).dropWhile p = rest := by
  rw [List.dropWhile_append_of_pos hfront]
  cases rest with
  | nil => rfl
  | cons c cs => rw [List.dropWhile_cons_of_neg (by simp [hrest c rfl])]

theorem skip_head (gap : α → Bool) (s : List α) : ∀ c ∈ (skip gap s).head?, gap c = false := by
  intro c hc
  have hnot := List.head?_dropWhile_not gap s
  rw [skip] at hc
  rw [hc] at hnot
  simpa using hnot

theorem scanPast_head : ∀ c ∈ (scanPast gap s).head?, gap c = true := by
  intro c hc
  have hnot := List.head?_dropWhile_not (fun c => !gap c) s
  rw [scanPast] at hc
  rw [hc] at hnot
  simpa using hnot

/-- Behind a gap a scan gets on. -/
theorem scanPast_length (h : skip gap s ≠ []) : (scanPast gap (skip gap s)).length < s.length := by
  have hle : (skip gap s).length ≤ s.length := List.length_dropWhile_le gap s
  have hhead := skip_head gap s
  cases hs : skip gap s with
  | nil => exact absurd hs h
  | cons c cs =>
    rw [hs] at hhead
    have hc : gap c = false := hhead c rfl
    have hrest : scanPast gap (c :: cs) = scanPast gap cs := by
      rw [scanPast, List.dropWhile_cons_of_pos (by simp [hc]), scanPast]
    have hshort : (scanPast gap cs).length ≤ cs.length := List.length_dropWhile_le _ cs
    rw [hrest]
    rw [hs, List.length_cons] at hle
    omega

namespace Runs

/-- Without a run the scan over the gap gets to the end. -/
theorem skip_nil (h : Runs gap s []) : skip gap s = [] := by
  cases h with
  | blank h => exact List.dropWhile_eq_nil_iff.mpr h

/-- The two scans find the first run, and what is behind it has the others. -/
theorem scan (h : Runs gap s (run :: runs)) :
    skip gap s = run ++ scanPast gap (skip gap s) ∧ run ≠ [] ∧ Runs gap (scanPast gap (skip gap s)) runs := by
  cases h with
  | @run front _ rest _ hfront hne hrun hrest h =>
    have hskip : skip gap (front ++ run ++ rest) = run ++ rest := by
      rw [skip, List.append_assoc]
      apply dropWhile_append_stop hfront
      intro c hc
      obtain ⟨d, ds, rfl⟩ := List.exists_cons_of_ne_nil hne
      obtain rfl := Option.some.inj hc
      exact hrun d List.mem_cons_self
    have hscan : scanPast gap (run ++ rest) = rest := by
      apply dropWhile_append_stop
      · intro c hc
        simp [hrun c hc]
      · intro c hc
        simp [hrest c hc]
    rw [hskip, hscan]
    exact ⟨rfl, hne, h⟩

theorem unique {runs' : List (List α)} (h : Runs gap s runs) (h' : Runs gap s runs') : runs = runs' := by
  induction runs generalizing s runs' with
  | nil =>
    cases runs' with
    | nil => rfl
    | cons run' runs' =>
      obtain ⟨hskip, hne, -⟩ := h'.scan
      rw [h.skip_nil] at hskip
      exact absurd (List.append_eq_nil_iff.mp hskip.symm).1 hne
  | cons run runs ih =>
    obtain ⟨hskip, hne, hrest⟩ := h.scan
    cases runs' with
    | nil =>
      rw [h'.skip_nil] at hskip
      exact absurd (List.append_eq_nil_iff.mp hskip.symm).1 hne
    | cons run' runs' =>
      obtain ⟨hskip', -, hrest'⟩ := h'.scan
      have hrun : run = run' := List.append_cancel_right (hskip.symm.trans hskip')
      rw [hrun, ih hrest hrest']

end Runs

/-- Every list has its runs. -/
theorem runs_exist (gap : α → Bool) (s : List α) : ∃ runs, Runs gap s runs := by
  induction hlength : s.length using Nat.strongRecOn generalizing s with
  | ind length ih =>
    by_cases hblank : skip gap s = []
    · exact ⟨[], .blank (List.dropWhile_eq_nil_iff.mp hblank)⟩
    · obtain ⟨runs, hruns⟩ := ih _ (hlength ▸ scanPast_length hblank) (scanPast gap (skip gap s)) rfl
      let front := s.takeWhile gap
      let run := (skip gap s).takeWhile fun c => !gap c
      have hs : s = front ++ run ++ scanPast gap (skip gap s) := by
        rw [List.append_assoc, scanPast, List.takeWhile_append_dropWhile, skip, List.takeWhile_append_dropWhile]
      have hne : run ≠ [] := by
        intro hnil
        have hhead := skip_head gap s
        obtain ⟨c, cs, hc⟩ := List.exists_cons_of_ne_nil hblank
        rw [hc] at hhead
        have hrun : run = c :: cs.takeWhile fun c => !gap c := by
          simp only [run, hc]
          rw [List.takeWhile_cons_of_pos (by simp [hhead c rfl])]
        rw [hrun] at hnil
        cases hnil
      refine ⟨run :: runs, ?_⟩
      rw [hs]
      apply Runs.run (fun c hc => List.mem_takeWhile_imp hc) hne _ scanPast_head hruns
      intro c hc
      simpa using List.mem_takeWhile_imp hc

end Tokens
