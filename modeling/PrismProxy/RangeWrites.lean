import Mathlib.Data.List.Basic

/-! # Writing ranges of a sequence

A sequence with some of its elements replaced, and what a reader then finds inside the range
and outside of it. -/
namespace RangeWrites

variable {α : Type*} {xs ys zs : List α} {o o' i : ℕ}

def overwrite (xs : List α) (o : ℕ) (ys : List α) : List α :=
  xs.take o ++ ys ++ xs.drop (o + ys.length)

def HoldsAt (xs : List α) (o : ℕ) (ys : List α) : Prop :=
  ∀ i, i < ys.length → xs[o + i]? = ys[i]?

def Outside (o n i : ℕ) : Prop := i < o ∨ o + n ≤ i

theorem length_overwrite (h : o + ys.length ≤ xs.length) :
    (overwrite xs o ys).length = xs.length := by
  simp only [overwrite, List.length_append, List.length_take, List.length_drop]
  omega

theorem overwrite_holdsAt (h : o ≤ xs.length) : HoldsAt (overwrite xs o ys) o ys := by
  intro i hi
  have htake : (xs.take o).length = o := List.length_take_of_le h
  rw [overwrite, List.append_assoc, List.getElem?_append_right (by omega), htake,
    Nat.add_sub_cancel_left, List.getElem?_append_left hi]

theorem overwrite_outside (h : o + ys.length ≤ xs.length) (hi : Outside o ys.length i) :
    (overwrite xs o ys)[i]? = xs[i]? := by
  have htake : (xs.take o).length = o := List.length_take_of_le (by omega)
  rcases hi with hbefore | hafter
  · rw [overwrite, List.append_assoc, List.getElem?_append_left (by omega),
      List.getElem?_take_of_lt hbefore]
  · rw [overwrite, List.append_assoc, List.getElem?_append_right (by omega), htake,
      List.getElem?_append_right (by omega), List.getElem?_drop]
    congr 1
    omega

theorem HoldsAt.overwrite (h : HoldsAt xs o ys) (hfits : o' + zs.length ≤ xs.length)
    (hapart : o + ys.length ≤ o' ∨ o' + zs.length ≤ o) :
    HoldsAt (RangeWrites.overwrite xs o' zs) o ys := by
  intro i hi
  rw [overwrite_outside hfits (by unfold Outside; omega)]
  exact h i hi

end RangeWrites
