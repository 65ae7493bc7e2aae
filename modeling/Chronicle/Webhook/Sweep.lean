import Mathlib.Data.List.Rotate
import Chronicle.Lib.Sorting

/-! # Bounded sweeps

A tick of the recovery sweep takes a window of a bounded number of subscriptions
from the sorted list of all, and the next tick goes on where it ended. The window
is the front of a rotation of the list, so consecutive ticks go round it.
-/

namespace Chronicle.Webhook.Sweep

def sweepWindow (sweepBatch : ℤ) (sweepCursor : ℕ) (ids : List Bytes) : ℕ × List Bytes :=
  if sweepBatch ≤ 0 ∨ (ids.length : ℤ) ≤ sweepBatch then (0, ids)
  else
    let ids := Bytes.sort ids
    let start := if ids.length ≤ sweepCursor then 0 else sweepCursor
    let stop := start + sweepBatch.toNat
    if stop ≤ ids.length then (stop % ids.length, (ids.take stop).drop start)
    else (stop - ids.length, ids.drop start ++ ids.take (stop - ids.length))

/-- Successive ticks over the lists of ids they are given: the cursor, and the windows. -/
def ticks (sweepBatch : ℤ) (sweepCursor : ℕ) : List (List Bytes) → ℕ × List (List Bytes)
  | [] => (sweepCursor, [])
  | ids :: rest =>
    let tick := sweepWindow sweepBatch sweepCursor ids
    let later := ticks sweepBatch tick.1 rest
    (later.1, tick.2 :: later.2)

variable {ids call : List Bytes} {calls : List (List Bytes)} {b cursor : ℕ}

/-- The position at which a tick starts. -/
def origin (n cursor : ℕ) : ℕ := if n ≤ cursor then 0 else cursor

theorem origin_lt {n : ℕ} (hn : 0 < n) (cursor : ℕ) : origin n cursor < n := by
  unfold origin
  split <;> omega

theorem take_rotate {l : List Bytes} {start : ℕ} (hstart : start < l.length) (hb : b ≤ l.length) :
    (l.rotate start).take b =
      if start + b ≤ l.length then (l.take (start + b)).drop start
      else l.drop start ++ l.take (start + b - l.length) := by
  rw [List.rotate_eq_drop_append_take hstart.le, List.take_append, List.length_drop]
  split
  · rw [List.drop_take, show b - (l.length - start) = 0 by omega, List.take_zero, List.append_nil,
      show start + b - start = b by omega]
  · rw [List.take_of_length_le (by rw [List.length_drop]; omega), List.take_take,
      show min (b - (l.length - start)) start = start + b - l.length by omega]

theorem sweepWindow_eq (hb : 0 < b) (hlen : b < ids.length) (hcall : call.Perm ids) (cursor : ℕ) :
    sweepWindow b cursor call = ((origin ids.length cursor + b) % ids.length,
      ((Bytes.sort ids).rotate (origin ids.length cursor)).take b) := by
  have hsort : (Bytes.sort ids).length = ids.length := (Bytes.sort_perm ids).length_eq
  have horigin := origin_lt (Nat.zero_lt_of_lt hlen) cursor
  have hbounded : ¬ ((b : ℤ) ≤ 0 ∨ (call.length : ℤ) ≤ b) := by
    rw [hcall.length_eq]
    omega
  rw [take_rotate (by omega) (by omega), hsort, sweepWindow, if_neg hbounded,
    Bytes.sort_congr hcall]
  dsimp only
  rw [hsort, Int.toNat_natCast, ← origin]
  split
  · rfl
  · rw [← Nat.mod_eq_of_lt (a := origin ids.length cursor + b - ids.length) (b := ids.length)
      (by omega), ← Nat.mod_eq_sub_mod (by omega)]

theorem ticks_eq (hb : 0 < b) (hlen : b < ids.length) (hcalls : ∀ c ∈ calls, c.Perm ids)
    (cursor : ℕ) :
    (ticks b cursor calls).2 = (List.range calls.length).map fun i =>
      ((Bytes.sort ids).rotate (origin ids.length cursor + i * b)).take b := by
  have hsort : (Bytes.sort ids).length = ids.length := (Bytes.sort_perm ids).length_eq
  induction calls generalizing cursor with
  | nil => rfl
  | cons call calls ih =>
    rw [List.forall_mem_cons] at hcalls
    have hnext : origin ids.length ((origin ids.length cursor + b) % ids.length) =
        (origin ids.length cursor + b) % ids.length := by
      have hlt := Nat.mod_lt (origin ids.length cursor + b) (Nat.zero_lt_of_lt hlen)
      rw [origin, if_neg (by omega)]
    rw [ticks, List.length_cons, List.range_succ_eq_map, List.map_cons, List.map_map,
      sweepWindow_eq hb hlen hcalls.1]
    rw [ih hcalls.2, hnext, Nat.zero_mul, Nat.add_zero, List.cons.injEq]
    refine ⟨rfl, List.map_congr_left ?_⟩
    intro i _
    rw [Function.comp_apply, ← List.rotate_rotate, ← hsort, List.rotate_mod, List.rotate_rotate]
    congr 2
    rw [Nat.succ_mul]
    omega

theorem mem_windows (hb : 0 < b) (hlen : b < ids.length) (hcalls : ∀ c ∈ calls, c.Perm ids)
    (henough : ids.length ≤ calls.length * b) {id : Bytes} (hid : id ∈ ids) (cursor : ℕ) :
    ∃ w ∈ (ticks b cursor calls).2, id ∈ w := by
  have hsort : (Bytes.sort ids).length = ids.length := (Bytes.sort_perm ids).length_eq
  have hrotated : id ∈ (Bytes.sort ids).rotate (origin ids.length cursor) :=
    List.mem_rotate.mpr ((Bytes.sort_perm ids).mem_iff.mpr hid)
  -- the place of the id behind the start of the first window gives the window and the place in it
  obtain ⟨d, hd, hget⟩ := List.mem_iff_getElem.mp hrotated
  rw [List.length_rotate, hsort] at hd
  have hwindow : d / b < calls.length := Nat.div_lt_of_lt_mul (by rw [Nat.mul_comm]; omega)
  have hsplit := Nat.div_add_mod' d b
  have hmod := Nat.mod_lt d hb
  rw [ticks_eq hb hlen hcalls]
  refine ⟨_, List.mem_map.mpr ⟨d / b, List.mem_range.mpr hwindow, rfl⟩, ?_⟩
  refine List.mem_iff_getElem.mpr ⟨d % b, ?_, ?_⟩
  · rw [List.length_take, List.length_rotate, hsort]
    omega
  · rw [List.getElem_take, List.getElem_rotate, ← hget, List.getElem_rotate]
    congr 2
    omega

/-- Whatever ids were swept before, each tick over a set of more ids than its bound returns as many
distinct ones, and enough consecutive ticks return them all. -/
theorem sweep_covers (sweepBatch : ℤ) (hbatch : 1 ≤ sweepBatch) (ids : List Bytes)
    (hnodup : ids.Nodup) (hlen : sweepBatch < ids.length) (earlier calls : List (List Bytes))
    (hcalls : ∀ c ∈ calls, c.Perm ids) :
    let windows := (ticks sweepBatch (ticks sweepBatch 0 earlier).1 calls).2
    (∀ w ∈ windows, w.length = sweepBatch ∧ w.Nodup ∧ w ⊆ ids) ∧
      ((calls.length : ℤ) = (ids.length + sweepBatch - 1) / sweepBatch →
        ∀ id ∈ ids, ∃ w ∈ windows, id ∈ w) := by
  lift sweepBatch to ℕ using by omega
  rw [Int.ofNat_lt] at hlen
  have hb : 0 < sweepBatch := by omega
  refine ⟨?_, ?_⟩
  · rw [ticks_eq hb hlen hcalls]
    rintro w hw
    obtain ⟨i, -, rfl⟩ := List.mem_map.mp hw
    refine ⟨?_, ?_, ?_⟩
    · rw [List.length_take, List.length_rotate, (Bytes.sort_perm ids).length_eq,
        Nat.min_eq_left hlen.le]
    · exact (List.nodup_rotate.mpr ((Bytes.sort_perm ids).nodup_iff.mpr hnodup)).sublist
        (List.take_sublist _ _)
    · intro id hid
      exact (Bytes.sort_perm ids).mem_iff.mp (List.mem_rotate.mp (List.mem_of_mem_take hid))
  · intro hceil id hid
    refine mem_windows hb hlen hcalls ?_ hid _
    have hdiv := Int.lt_ediv_add_one_mul_self ((ids.length : ℤ) + sweepBatch - 1)
      (Int.natCast_pos.mpr hb)
    rw [← hceil, Int.add_mul] at hdiv
    exact_mod_cast show (ids.length : ℤ) ≤ calls.length * sweepBatch by omega

/-- Three ids in windows of two, from a cursor that another set of ids has left. -/
theorem sweep_covers_three :
    (ticks 2 0 [[[4], [3], [2], [1], [0]], [[4], [3], [2], [1], [0]]]).1 = 4 ∧
    (ticks 2 4 [[[7], [8], [9]], [[9], [8], [7]]]).2 = [[[7], [8]], [[9], [7]]] ∧
    ∀ id ∈ ([[7], [8], [9]] : List Bytes), ∃ w ∈ [[[7], [8]], [[9], [7]]], id ∈ w := by
  have hwindows : (ticks 2 4 [[[7], [8], [9]], [[9], [8], [7]]]).2 =
      [[[7], [8]], [[9], [7]]] := by decide
  have hcovers := (sweep_covers 2 (by decide) [[7], [8], [9]] (by decide) (by decide)
    [[[4], [3], [2], [1], [0]], [[4], [3], [2], [1], [0]]] [[[7], [8], [9]], [[9], [8], [7]]]
    (by decide)).2 (by decide)
  exact ⟨by decide, hwindows, hcovers⟩

end Chronicle.Webhook.Sweep
