import Mathlib.Data.List.Basic

/-! # Ring buffers

A ring holds its elements in a row of cells that begins at the head and goes on
from the last cell to the first. It stands for the list of its elements, oldest
first; cells that hold none may hold anything.
-/

structure RingBuffer (α : Type*) where
  cells : List α
  head : ℕ
  count : ℕ
  head_lt : head < cells.length
  count_le : count ≤ cells.length

namespace RingBuffer

variable {α : Type*} {r r' : RingBuffer α} {x : α} {i j : ℕ}

def capacity (r : RingBuffer α) : ℕ := r.cells.length

def index (r : RingBuffer α) (i : ℕ) : ℕ := (r.head + i) % r.capacity

theorem index_lt (r : RingBuffer α) (i : ℕ) : r.index i < r.cells.length :=
  Nat.mod_lt _ (Nat.zero_lt_of_lt r.head_lt)

theorem index_eq (h : i ≤ r.capacity) :
    r.index i = if r.head + i < r.capacity then r.head + i else r.head + i - r.capacity := by
  have hlt : r.head < r.capacity := r.head_lt
  unfold index
  split_ifs with hi
  · exact Nat.mod_eq_of_lt hi
  · rw [Nat.mod_eq_sub_mod (by omega), Nat.mod_eq_of_lt (by omega)]

theorem index_ne (hi : i < j) (hj : j < r.capacity) : r.index i ≠ r.index j := by
  have hlt : r.head < r.capacity := r.head_lt
  rw [index_eq (by omega), index_eq (by omega)]
  split_ifs <;> omega

def get (r : RingBuffer α) (i : ℕ) : α := r.cells.get ⟨r.index i, r.index_lt i⟩

def contents (r : RingBuffer α) : List α := (List.range r.count).map r.get

@[simp] theorem length_contents (r : RingBuffer α) : r.contents.length = r.count := by simp [contents]

def empty (blank : α) (capacity : ℕ) (h : 0 < capacity) : RingBuffer α where
  cells := List.replicate capacity blank
  head := 0
  count := 0
  head_lt := by simpa using h
  count_le := by simp

@[simp] theorem contents_empty (blank : α) {capacity : ℕ} (h : 0 < capacity) :
    (empty blank capacity h).contents = [] := rfl

@[simp] theorem capacity_empty (blank : α) {capacity : ℕ} (h : 0 < capacity) :
    (empty blank capacity h).capacity = capacity := List.length_replicate

theorem getElem?_index (r : RingBuffer α) (i : ℕ) : r.cells[r.index i]? = some (r.get i) :=
  List.getElem?_eq_getElem (r.index_lt i)

theorem get_congr (hcells : r'.cells[r'.index i]? = r.cells[r.index j]?) : r'.get i = r.get j := by
  rw [getElem?_index, getElem?_index] at hcells
  exact Option.some.inj hcells

def push (r : RingBuffer α) (x : α) : Option (RingBuffer α) :=
  if h : r.count < r.cells.length then
    some
      { cells := r.cells.set (r.index r.count) x
        head := r.head
        count := r.count + 1
        head_lt := by simpa using r.head_lt
        count_le := by rw [List.length_set]; exact h }
  else none

def pop (r : RingBuffer α) (blank : α) : Option (α × RingBuffer α) :=
  if 0 < r.count then
    some (r.get 0,
      { cells := r.cells.set (r.index 0) blank
        head := r.index 1
        count := r.count - 1
        head_lt := by rw [List.length_set]; exact r.index_lt 1
        count_le := by rw [List.length_set]; exact Nat.le_trans (Nat.sub_le r.count 1) r.count_le })
  else none

/-- A ring with a free cell takes another element. -/
theorem push_spec (h : r.count < r.capacity) (x : α) :
    ∃ r', r.push x = some r' ∧ r'.contents = r.contents ++ [x] ∧ r'.capacity = r.capacity := by
  obtain ⟨r', hr'⟩ : ∃ r', r.push x = some r' := ⟨_, dif_pos h⟩
  have hpush := hr'
  rw [push, dif_pos (show r.count < r.cells.length from h), Option.some.injEq] at hpush
  have hcells : r'.cells = r.cells.set (r.index r.count) x := by rw [← hpush]
  have hcapacity : r'.capacity = r.capacity := by rw [capacity, hcells, List.length_set, capacity]
  have hindex : r'.index = r.index := by
    funext i
    rw [index, index, hcapacity, ← hpush]
  have hcount : r'.count = r.count + 1 := by rw [← hpush]
  refine ⟨r', hr', ?_, hcapacity⟩
  rw [contents, contents, hcount, List.range_succ, List.map_append]
  congr 1
  · apply List.map_congr_left
    intro i hi
    apply get_congr
    rw [hcells, hindex, List.getElem?_set_ne (index_ne (List.mem_range.1 hi) h).symm]
  · have hlast := r'.getElem?_index r.count
    rw [hcells, hindex, List.getElem?_set_self (r.index_lt _), Option.some.injEq] at hlast
    rw [List.map_singleton, ← hlast]

/-- A ring that holds an element gives its oldest one. -/
theorem pop_spec (h : 0 < r.count) (blank : α) :
    ∃ x r', r.pop blank = some (x, r') ∧ r.contents = x :: r'.contents ∧
      r'.capacity = r.capacity := by
  obtain ⟨r', hr'⟩ : ∃ r', r.pop blank = some (r.get 0, r') := ⟨_, if_pos h⟩
  have hpop := hr'
  rw [pop, if_pos h, Option.some.injEq, Prod.mk.injEq] at hpop
  have hcells : r'.cells = r.cells.set (r.index 0) blank := by rw [← hpop.2]
  have hcapacity : r'.capacity = r.capacity := by rw [capacity, hcells, List.length_set, capacity]
  have hindex : ∀ i, r'.index i = r.index (i + 1) := by
    intro i
    have hhead : r'.head = r.index 1 := by rw [← hpop.2]
    rw [index, index, hcapacity, hhead, index, Nat.mod_add_mod, Nat.add_assoc, Nat.add_comm 1]
  have hcount : r.count = r'.count + 1 := by
    rw [← hpop.2]
    exact (Nat.sub_add_cancel h).symm
  refine ⟨r.get 0, r', hr', ?_, hcapacity⟩
  rw [contents, contents, hcount, List.range_succ_eq_map, List.map_cons, List.map_map]
  congr 1
  apply List.map_congr_left
  intro i hi
  have hlt : i + 1 < r.capacity := by
    have := List.mem_range.1 hi
    have := r.count_le
    unfold capacity
    omega
  apply get_congr
  rw [hcells, hindex, List.getElem?_set_ne (index_ne (Nat.succ_pos i) hlt)]

end RingBuffer
