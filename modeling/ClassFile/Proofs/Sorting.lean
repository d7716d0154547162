/-!
# Sorting without repetition

A list that is sorted and then cleared of repetitions is strictly ascending, and has the members that it had.
-/

namespace ClassFile.Sorting

variable {α : Type} [LE α] [LT α] [Std.IsLinearOrder α] [Std.LawfulOrderLT α] [BEq α] [LawfulBEq α]

theorem eraseReps_loop {a : α} {as found : List α} (h : (a :: as).Pairwise (· ≤ ·)) :
    ∃ more, List.eraseRepsBy.loop (· == ·) a as found = found.reverse ++ a :: more ∧
      (a :: more).Pairwise (· < ·) ∧ ∀ x, x ∈ a :: more ↔ x ∈ a :: as := by
  induction as generalizing a found with
  | nil => exact ⟨[], by simp [List.eraseRepsBy.loop], by simp, fun _ => Iff.rfl⟩
  | cons b as ih =>
      obtain ⟨hle, hrest⟩ := List.pairwise_cons.mp h
      -- The loop carries the last member, and passes over the next one if it is the same.
      by_cases hab : a = b
      · subst hab
        obtain ⟨more, hloop, hsorted, hmem⟩ := @ih a found hrest
        refine ⟨more, ?_, hsorted, fun x => ?_⟩
        · rw [List.eraseRepsBy.loop, beq_self_eq_true]
          exact hloop
        · rw [hmem]
          simp
      · obtain ⟨more, hloop, hsorted, hmem⟩ := @ih b (a :: found) hrest
        have hlt : a < b := Std.lt_of_le_of_ne (hle b List.mem_cons_self) hab
        refine ⟨b :: more, ?_, ?_, fun x => ?_⟩
        · rw [List.eraseRepsBy.loop, beq_false_of_ne hab]
          simpa using hloop
        · refine List.pairwise_cons.mpr ⟨fun x hx => ?_, hsorted⟩
          rcases List.mem_cons.mp hx with rfl | hx
          · exact hlt
          · exact Std.lt_trans hlt ((List.pairwise_cons.mp hsorted).1 x hx)
        · rw [List.mem_cons, hmem, ← List.mem_cons]

theorem eraseReps_sorted {as : List α} (h : as.Pairwise (· ≤ ·)) :
    as.eraseReps.Pairwise (· < ·) ∧ ∀ x, x ∈ as.eraseReps ↔ x ∈ as := by
  cases as with
  | nil => exact ⟨.nil, fun _ => Iff.rfl⟩
  | cons a as =>
      obtain ⟨more, hloop, hsorted, hmem⟩ := @eraseReps_loop α _ _ _ _ _ _ a as [] h
      have heq : (a :: as).eraseReps = a :: more := hloop
      rw [heq]
      exact ⟨hsorted, hmem⟩

theorem eraseReps_mergeSort [DecidableLE α] (as : List α) :
    (as.mergeSort fun a b => a ≤ b).eraseReps.Pairwise (· < ·) ∧
      ∀ x, x ∈ (as.mergeSort fun a b => a ≤ b).eraseReps ↔ x ∈ as := by
  have hsorted : (as.mergeSort fun a b => a ≤ b).Pairwise fun a b => decide (a ≤ b) = true :=
    List.pairwise_mergeSort (by simpa using fun a b c => Std.le_trans) (by simpa using fun a b => Std.le_total) _
  simp only [decide_eq_true_eq] at hsorted
  obtain ⟨hlt, hmem⟩ := eraseReps_sorted hsorted
  exact ⟨hlt, fun x => by rw [hmem, List.mem_mergeSort]⟩

end ClassFile.Sorting
