import ConditionalText.Files.Config
import Mathlib.Algebra.GroupWithZero.Nat

/-!
# Summaries put together

A summary of some files and one of others make the summary of all of them; an error by itself is a
summary too. So a run, which notes one result after another, comes to the sums of the counters and
to the errors one after another (`foldl_merge`), and once the errors are sorted it does not matter in
which order the results have arrived (`sortErrors_foldl_merge`).
-/

namespace ConditionalText.Files.Summary

/-- An error by itself. -/
def ofError (message : String) : Summary :=
  ⟨0, 0, 0, [message]⟩

theorem addError_eq (s : Summary) (message : String) :
    s.addError message = s.merge (ofError message) :=
  rfl

/-- **Summaries are added up.** -/
theorem foldl_merge (parts : List Summary) (s : Summary) :
    parts.foldl merge s =
      { processed := s.processed + (parts.map processed).sum
        changed := s.changed + (parts.map changed).sum
        removedBytes := s.removedBytes + (parts.map removedBytes).sum
        errors := s.errors ++ parts.flatMap errors } := by
  induction parts generalizing s with
  | nil => simp
  | cons part parts ih => simp [ih, merge, Nat.add_assoc]

/-- Errors are listed in one order only. -/
theorem sort_perm {a b : List String} (h : a.Perm b) :
    (a.mergeSort fun x y => decide (x ≤ y)) = b.mergeSort fun x y => decide (x ≤ y) := by
  have hsorted (l : List String) :
      (l.mergeSort fun x y => decide (x ≤ y)).Pairwise fun x y => decide (x ≤ y) = true := by
    refine List.pairwise_mergeSort (fun x y z hxy hyz => ?_) (fun x y => ?_) l
    · rw [decide_eq_true_iff] at hxy hyz ⊢
      exact String.le_trans hxy hyz
    · rw [Bool.or_eq_true, decide_eq_true_iff, decide_eq_true_iff]
      exact String.le_total x y
  refine List.Perm.eq_of_pairwise (fun x y _ _ hxy hyx => ?_) (hsorted a) (hsorted b) ?_
  · rw [decide_eq_true_iff] at hxy hyx
    exact String.le_antisymm hxy hyx
  · exact (List.mergeSort_perm a _).trans (h.trans (List.mergeSort_perm b _).symm)

/-- **Results may arrive in any order.** -/
theorem sortErrors_foldl_merge {parts parts' : List Summary} (h : parts.Perm parts') (s : Summary) :
    (parts.foldl merge s).sortErrors = (parts'.foldl merge s).sortErrors := by
  rw [foldl_merge, foldl_merge, sortErrors, sortErrors, (h.map processed).sum_nat,
    (h.map changed).sum_nat, (h.map removedBytes).sum_nat,
    sort_perm ((h.flatMap_right errors).append_left s.errors)]

end ConditionalText.Files.Summary
