import Mathlib.Data.List.Sort
import Chronicle.Lib.Ascii

/-! # Sorted byte strings

Bytewise order is linear, so a sorted list of byte strings is given by its
members.
-/

namespace Bytes

theorem lexLe_iff_le {s t : Bytes} : lexLe s t ↔ s ≤ t := by
  simp [lexLe, ← List.not_lt, ← lexLt_iff_lt]

instance : Std.Total fun s t : Bytes => lexLe s t = true where
  total s t := by simpa only [lexLe_iff_le] using List.le_total s t

instance : IsTrans Bytes fun s t => lexLe s t = true where
  trans s t u := by simpa only [lexLe_iff_le] using List.le_trans

instance : Std.Antisymm fun s t : Bytes => lexLe s t = true where
  antisymm s t := by simpa only [lexLe_iff_le] using List.le_antisymm

def sort (l : List Bytes) : List Bytes := l.insertionSort fun s t => lexLe s t

variable {l l' : List Bytes}

theorem sort_perm (l : List Bytes) : (sort l).Perm l := List.perm_insertionSort _ l

theorem sort_congr (h : l.Perm l') : sort l = sort l' := by
  have hperm := ((sort_perm l).trans h).trans (sort_perm l').symm
  exact hperm.eq_of_pairwise' (List.pairwise_insertionSort _ _) (List.pairwise_insertionSort _ _)

end Bytes
