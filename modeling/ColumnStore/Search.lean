/-!
# Partition points

Binary search for the first position of a range at which a property fails,
where the property holds on a first part of the range and fails on the rest.
-/

namespace ColumnStore

/-- The first position from `lo` up to `hi` at which `holds` fails, or `hi`. -/
def partitionPoint (holds : Nat → Bool) (lo hi : Nat) : Nat :=
  if lo < hi then
    let mid := lo + (hi - lo) / 2
    if holds mid then partitionPoint holds (mid + 1) hi else partitionPoint holds lo mid
  else
    lo
termination_by hi - lo

theorem le_partitionPoint (holds : Nat → Bool) (lo hi : Nat) : lo ≤ partitionPoint holds lo hi := by
  fun_induction partitionPoint holds lo hi with
  | case1 => omega
  | case2 => omega
  | case3 => omega

theorem partitionPoint_le {holds : Nat → Bool} {lo hi : Nat} (h : lo ≤ hi) :
    partitionPoint holds lo hi ≤ hi := by
  fun_induction partitionPoint holds lo hi with
  | case1 => omega
  | case2 => omega
  | case3 => omega

/-- A property that fails nowhere before one of its successes is searched
exactly: it holds before the partition point and fails from there on. -/
theorem holds_iff_lt_partitionPoint {holds : Nat → Bool} {lo hi : Nat}
    (mono : ∀ i j, lo ≤ i → i ≤ j → j < hi → holds j = true → holds i = true)
    {i : Nat} (hlo : lo ≤ i) (hhi : i < hi) :
    holds i = true ↔ i < partitionPoint holds lo hi := by
  fun_induction partitionPoint holds lo hi with
  | case1 lo hi hlt mid hmid ih =>
    by_cases hi' : i ≤ mid
    · have h1 : holds i = true := mono i mid hlo hi' (by omega) hmid
      have h2 := le_partitionPoint holds (mid + 1) hi
      exact iff_of_true h1 (by omega)
    · exact ih (fun a b ha hab hb => mono a b (by omega) hab hb) (by omega) hhi
  | case2 lo hi hlt mid hmid ih =>
    by_cases hi' : i < mid
    · exact ih (fun a b ha hab hb => mono a b ha hab (by omega)) hlo hi'
    · have h1 : ¬ holds i = true := fun h => hmid (mono mid i (by omega) (by omega) hhi h)
      have h2 : partitionPoint holds lo mid ≤ mid := partitionPoint_le (by omega)
      exact iff_of_false h1 (by omega)
  | case3 lo hi hlt => omega

end ColumnStore
