import Mathlib
import Quorum.Round.Table
import Quorum.Proofs.Outcome

/-!
# What acceptance tables hold

A table is read slot by slot.  Accepting a value writes the slot of its sender
if that slot exists and is empty, and leaves all others alone; a table is
complete when every slot is filled, and its values are then those of the slots.
-/

namespace Quorum.AcceptanceTable

variable {α : Type}

/-- The number of slots. -/
def size (t : AcceptanceTable α) : Nat :=
  t.slots.length

@[simp]
theorem size_empty (n : Nat) : (empty n : AcceptanceTable α).size = n :=
  List.length_replicate

@[simp]
theorem get?_empty (n j : Nat) : (empty n : AcceptanceTable α).get? j = none := by
  rw [get?, empty, List.getElem?_replicate]
  split <;> rfl

@[simp]
theorem size_accept (t : AcceptanceTable α) (i : Nat) (v : α) :
    (t.accept i v).2.size = t.size := by
  rw [accept]
  split
  · exact List.length_set
  · rfl

theorem get?_eq_none_of_size_le {t : AcceptanceTable α} {j : Nat}
    (h : t.size ≤ j) : t.get? j = none := by
  rw [get?, List.getElem?_eq_none h]
  rfl

theorem getElem_slots {t : AcceptanceTable α} {j : Nat}
    (h : j < t.slots.length) : t.slots[j] = t.get? j := by
  rw [get?, List.getElem?_eq_getElem h]
  rfl

theorem getElem?_slots {t : AcceptanceTable α} {j : Nat} (h : j < t.size) :
    t.slots[j]? = some (t.get? j) := by
  rw [List.getElem?_eq_getElem h, getElem_slots h]

theorem ext_get? {t u : AcceptanceTable α} (hsize : t.size = u.size)
    (h : ∀ j < t.size, t.get? j = u.get? j) : t = u := by
  have hslots : t.slots = u.slots := by
    apply List.ext_getElem? fun j => ?_
    by_cases hj : j < t.size
    · rw [getElem?_slots hj, getElem?_slots (hsize ▸ hj), h j hj]
    · have hu : ¬ j < u.size := hsize ▸ hj
      rw [List.getElem?_eq_none (not_lt.mp hj),
        List.getElem?_eq_none (not_lt.mp hu)]
  cases t
  cases u
  cases hslots
  rfl

/-- A value goes to the slot of its sender, unless that slot is filled. -/
theorem get?_accept (t : AcceptanceTable α) (i j : Nat) (v : α) :
    (t.accept i v).2.get? j =
      if j = i ∧ j < t.size then (t.get? j).or (some v) else t.get? j := by
  by_cases hi : i < t.size
  · have hslot := getElem?_slots hi
    rw [accept, hslot]
    cases hget : t.get? i with
    | none =>
      by_cases hj : j = i
      · subst hj
        rw [if_pos ⟨rfl, hi⟩, hget]
        simp [get?, List.getElem?_set_self hi]
      · rw [if_neg fun h => hj h.1]
        simp [get?, List.getElem?_set_ne (Ne.symm hj)]
    | some w =>
      by_cases hj : j = i
      · subst hj
        rw [if_pos ⟨rfl, hi⟩, hget]
        rfl
      · rw [if_neg fun h => hj h.1]
  · have hslot : t.slots[i]? = none := List.getElem?_eq_none (not_lt.mp hi)
    rw [accept, hslot, if_neg]
    rintro ⟨rfl, hj⟩
    exact hi hj

theorem isComplete_iff {t : AcceptanceTable α} :
    t.isComplete = true ↔ ∀ j < t.size, (t.get? j).isSome = true := by
  rw [isComplete, List.all_eq_true]
  constructor
  · intro h j hj
    have hmem := List.getElem_mem (l := t.slots) hj
    rw [← getElem_slots hj]
    exact h _ hmem
  · intro h v hv
    obtain ⟨j, hj, rfl⟩ := List.mem_iff_getElem.mp hv
    rw [getElem_slots hj]
    exact h j hj

theorem values?_eq_some {t : AcceptanceTable α} {vs : List α} :
    t.values? = some vs ↔ vs.length = t.size ∧ ∀ j, t.get? j = vs[j]? := by
  rw [values?, mapM_id_eq_some]
  constructor
  · intro h
    have hlength : vs.length = t.size := by
      rw [size, h, List.length_map]
    refine ⟨hlength, fun j => ?_⟩
    rw [get?, h, List.getElem?_map]
    cases vs[j]? <;> rfl
  · rintro ⟨hlength, hget⟩
    apply List.ext_getElem? fun j => ?_
    by_cases hj : j < t.size
    · rw [getElem?_slots hj, hget j, List.getElem?_map,
        List.getElem?_eq_getElem (hlength ▸ hj)]
      rfl
    · rw [List.getElem?_eq_none (not_lt.mp hj), List.getElem?_map,
        List.getElem?_eq_none (hlength ▸ not_lt.mp hj)]
      rfl

theorem isSome_values? (t : AcceptanceTable α) :
    t.values?.isSome = t.isComplete := by
  obtain ⟨slots⟩ := t
  rw [values?, isComplete]
  induction slots with
  | nil => rfl
  | cons slot slots ih =>
    rw [List.mapM_cons, List.all_cons, ← ih]
    cases slot with
    | none => rfl
    | some v => cases slots.mapM id <;> rfl

end Quorum.AcceptanceTable
