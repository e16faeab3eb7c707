import Mathlib.Data.List.Basic
import Mathlib.Data.Nat.ModEq

/-!
# Windows of a ring

The `n` slots of a ring from a head on, in order. A slot behind the window can be written without
disturbing it, and becomes its last element when the window grows; the first slot can be written
once the head has moved on.
-/

namespace Conduit.Data

open List

variable {α : Type} [Inhabited α] {head : Nat} {buffer : List α}

/-- The elements of `n` slots from `head` on, around the end of the buffer. -/
def window (buffer : List α) (head n : Nat) : List α :=
  (range n).map fun i => buffer.getD ((head + i) % buffer.length) default

@[simp] theorem length_window (buffer : List α) (head n : Nat) :
    (window buffer head n).length = n := by
  simp [window]

@[simp] theorem window_zero (buffer : List α) (head : Nat) : window buffer head 0 = [] := rfl

theorem window_succ (buffer : List α) (head n : Nat) : window buffer head (n + 1)
      = window buffer head n ++ [buffer.getD ((head + n) % buffer.length) default] := by
  simp [window, range_succ]

theorem window_succ_head (buffer : List α) (head n : Nat) : window buffer head (n + 1)
      = buffer.getD (head % buffer.length) default
        :: window buffer ((head + 1) % buffer.length) n := by
  have hshift : ∀ i, (head + (i + 1)) % buffer.length
      = ((head + 1) % buffer.length + i) % buffer.length := by
    intro i
    rw [Nat.mod_add_mod, Nat.add_assoc, Nat.add_comm 1 i]
  simp only [window, range_succ_eq_map, map_cons, map_map, Nat.add_zero]
  congr 1
  apply map_congr_left
  intro i _
  exact congrArg (buffer.getD · default) (hshift i)

theorem slot_ne {len i j : Nat} (hi : i < len) (hj : j < len) (hij : i ≠ j) :
    (head + i) % len ≠ (head + j) % len := by
  intro heq
  have hmod : i ≡ j [MOD len] := Nat.ModEq.add_left_cancel' head heq
  rw [Nat.ModEq, Nat.mod_eq_of_lt hi, Nat.mod_eq_of_lt hj] at hmod
  exact hij hmod

theorem window_set {n slot : Nat} (x : α) (hout : ∀ i < n, (head + i) % buffer.length ≠ slot) :
    window (buffer.set slot x) head n = window buffer head n := by
  unfold window
  apply map_congr_left
  intro i hi
  have hne := hout i (mem_range.mp hi)
  rw [length_set, getD_eq_getElem?_getD, getD_eq_getElem?_getD, getElem?_set_ne hne.symm]

theorem window_push {n : Nat} (x : α) (hn : n < buffer.length) :
    window (buffer.set ((head + n) % buffer.length) x) head (n + 1)
      = window buffer head n ++ [x] := by
  have hslot : (head + n) % buffer.length < buffer.length := Nat.mod_lt _ (by omega)
  have hkeep : window (buffer.set ((head + n) % buffer.length) x) head n
      = window buffer head n := by
    apply window_set
    intro i hi
    exact slot_ne (by omega) hn (by omega)
  rw [window_succ, hkeep, length_set, getD_eq_getElem?_getD, getElem?_set_self hslot]
  rfl

theorem window_pop {n : Nat} (x : α) (hhead : head < buffer.length) (hn : n < buffer.length) :
    window buffer head (n + 1) = buffer.getD head default
      :: window (buffer.set head x) ((head + 1) % buffer.length) n := by
  rw [window_succ_head, Nat.mod_eq_of_lt hhead, window_set]
  intro i hi heq
  have hne : (head + 0) % buffer.length ≠ (head + (1 + i)) % buffer.length :=
    slot_ne (by omega) (by omega) (by omega)
  rw [Nat.mod_add_mod, Nat.add_assoc] at heq
  exact hne (by rw [heq, Nat.add_zero, Nat.mod_eq_of_lt hhead])

end Conduit.Data
