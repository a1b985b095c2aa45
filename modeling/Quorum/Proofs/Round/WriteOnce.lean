import Mathlib
import Quorum.Proofs.Round.Table

/-!
# Tables as maps that are written once

Values are offered to a table one after the other, each as that of some sender.
The table then holds the first value offered for each of its senders, and an
offer is answered with `true` exactly if it is the first one for a sender of the
table.  Everything else that can be observed follows from these first values.

Several threads that share a table take turns in some order.  Whatever the order
is, one offer for each sender succeeds.
-/

namespace Quorum

/-- What several threads do, each in its order, as one sequence. -/
inductive Merges {β : Type} : List (List β) → List β → Prop
  /-- No thread has anything left to do. -/
  | done {threads : List (List β)} (h : ∀ calls ∈ threads, calls = []) : Merges threads []
  /-- Some thread does what is next for it. -/
  | step {before after : List (List β)} {call : β} {calls merged : List β}
    (h : Merges (before ++ calls :: after) merged) :
    Merges (before ++ (call :: calls) :: after) (call :: merged)

/-- Nothing is lost in a merge, and nothing is added. -/
theorem Merges.mem_iff {β : Type} {threads : List (List β)} {merged : List β}
    (h : Merges threads merged) {call : β} :
    call ∈ merged ↔ ∃ calls ∈ threads, call ∈ calls := by
  induction h with
  | done h =>
    refine iff_of_false List.not_mem_nil ?_
    rintro ⟨calls, hcalls, hmem⟩
    rw [h calls hcalls] at hmem
    exact List.not_mem_nil hmem
  | step h ih =>
    simp only [List.mem_cons, ih, List.mem_append, or_and_right, exists_or, exists_eq_left]
    rw [or_assoc, or_left_comm]

namespace AcceptanceTable

variable {α : Type}

/-- A value that is offered to a table as that of a sender. -/
structure Offer (α : Type) where
  sender : Nat
  value : α

/-- The answers to a sequence of offers, and the table after it. -/
def offerAll (t : AcceptanceTable α) : List (Offer α) → List Bool × AcceptanceTable α
  | [] => ([], t)
  | o :: os =>
    let (answer, t') := t.accept o.sender o.value
    let (answers, t'') := t'.offerAll os
    (answer :: answers, t'')

/-- The first value that is offered for a sender. -/
def firstValue? (os : List (Offer α)) (j : Nat) : Option α :=
  (os.find? (·.sender == j)).map Offer.value

/-- The senders below `n` for which a value is offered. -/
def sendersBelow (n : Nat) (os : List (Offer α)) : Finset Nat :=
  (os.map Offer.sender).toFinset.filter (· < n)

theorem firstValue?_concat (os : List (Offer α)) (o : Offer α) (j : Nat) :
    firstValue? (os ++ [o]) j =
      (firstValue? os j).or (if j = o.sender then some o.value else none) := by
  rw [firstValue?, firstValue?, List.find?_append, List.find?_singleton]
  cases os.find? (·.sender == j) with
  | none => by_cases h : o.sender = j <;> simp [h, Ne.symm]
  | some first => rfl

theorem firstValue?_eq_none {os : List (Offer α)} {j : Nat} :
    firstValue? os j = none ↔ ∀ o ∈ os, o.sender ≠ j := by
  simp [firstValue?]

theorem isSome_firstValue? {os : List (Offer α)} {j : Nat} :
    (firstValue? os j).isSome = true ↔ ∃ o ∈ os, o.sender = j := by
  simp [firstValue?]

/-! ## One offer -/

theorem accept_fst (t : AcceptanceTable α) (i : Nat) (v : α) :
    (t.accept i v).1 = true ↔ i < t.size ∧ t.get? i = none := by
  by_cases hi : i < t.size
  · rw [accept, getElem?_slots hi]
    cases t.get? i <;> simp [hi]
  · rw [accept, List.getElem?_eq_none (not_lt.mp hi)]
    simp [hi]

/-- The table has `n` slots, which hold the first values of a sequence of offers. -/
structure HoldsFirst (n : Nat) (os : List (Offer α)) (t : AcceptanceTable α) : Prop where
  size_eq : t.size = n
  /-- A slot is filled by the first offer for it. -/
  slot : ∀ j < n, t.get? j = firstValue? os j

variable {n : Nat} {os : List (Offer α)} {t : AcceptanceTable α}

theorem holdsFirst_empty (n : Nat) : (empty n : AcceptanceTable α).HoldsFirst n [] where
  size_eq := size_empty n
  slot j _ := get?_empty n j

theorem HoldsFirst.accept (h : t.HoldsFirst n os) (o : Offer α) :
    (t.accept o.sender o.value).2.HoldsFirst n (os ++ [o]) where
  size_eq := (size_accept t _ _).trans h.size_eq
  slot j hj := by
    rw [get?_accept, h.size_eq, h.slot j hj, firstValue?_concat]
    by_cases hsender : j = o.sender
    · rw [if_pos ⟨hsender, hj⟩, if_pos hsender]
    · rw [if_neg fun hand => hsender hand.1, if_neg hsender, Option.or_none]

/-- An offer succeeds if the table has a slot for it and no offer before was for that slot. -/
theorem HoldsFirst.accept_fst (h : t.HoldsFirst n os) (o : Offer α) :
    (t.accept o.sender o.value).1 = true ↔
      o.sender < n ∧ ∀ o' ∈ os, o'.sender ≠ o.sender := by
  rw [AcceptanceTable.accept_fst, h.size_eq]
  refine and_congr_right fun hlt => ?_
  rw [h.slot _ hlt, firstValue?_eq_none]

/-! ## A sequence of offers -/

theorem HoldsFirst.offerAll (h : t.HoldsFirst n os) (later : List (Offer α)) :
    (t.offerAll later).2.HoldsFirst n (os ++ later) := by
  induction later generalizing t os with
  | nil =>
    rw [List.append_nil]
    exact h
  | cons o later ih =>
    have hlater := ih (h.accept o)
    rw [List.append_assoc, List.singleton_append] at hlater
    exact hlater

theorem length_offerAll (t : AcceptanceTable α) (os : List (Offer α)) :
    (t.offerAll os).1.length = os.length := by
  induction os generalizing t with
  | nil => rfl
  | cons o os ih => exact congrArg Nat.succ (ih _)

/-- An offer in a sequence is answered by whether it is the first one for a slot. -/
theorem HoldsFirst.getElem?_offerAll (h : t.HoldsFirst n os) {later : List (Offer α)}
    {k : Nat} {o : Offer α} (ho : later[k]? = some o) :
    (t.offerAll later).1[k]? = some true ↔
      o.sender < n ∧ ∀ o' ∈ os ++ later.take k, o'.sender ≠ o.sender := by
  induction later generalizing t os k with
  | nil => simp at ho
  | cons first later ih =>
    cases k with
    | zero =>
      obtain rfl : first = o := by simpa using ho
      rw [List.take_zero, List.append_nil, ← h.accept_fst first]
      exact Option.some_inj
    | succ k =>
      have hlater := ih (h.accept first) ho
      rw [List.append_assoc, List.singleton_append] at hlater
      exact hlater

/-- The offer at position `k` is for the sender `j`, and it is answered with `true`. -/
def Succeeds (n : Nat) (os : List (Offer α)) (k j : Nat) : Prop :=
  os[k]?.map Offer.sender = some j ∧ ((empty n).offerAll os).1[k]? = some true

theorem forall_mem_take_sender_ne {os : List (Offer α)} {k j : Nat} :
    (∀ o ∈ os.take k, o.sender ≠ j) ↔ ∀ i < k, os[i]?.map Offer.sender ≠ some j := by
  constructor
  · intro h i hi heq
    obtain ⟨o, ho, rfl⟩ := Option.map_eq_some_iff.mp heq
    rw [← List.getElem?_take_of_lt hi] at ho
    exact h o (List.mem_of_getElem? ho) rfl
  · intro h o ho
    obtain ⟨i, hi⟩ := List.mem_iff_getElem?.mp ho
    rw [List.getElem?_take] at hi
    split_ifs at hi with hlt
    rintro rfl
    exact h i hlt (congrArg (Option.map Offer.sender) hi)

/-- An offer succeeds if it is the first one for a slot of the table. -/
theorem succeeds_iff {n k j : Nat} {os : List (Offer α)} :
    Succeeds n os k j ↔
      os[k]?.map Offer.sender = some j ∧ j < n ∧
        ∀ i < k, os[i]?.map Offer.sender ≠ some j := by
  refine and_congr_right fun hk => ?_
  obtain ⟨o, ho, rfl⟩ := Option.map_eq_some_iff.mp hk
  rw [(holdsFirst_empty n).getElem?_offerAll ho, List.nil_append, forall_mem_take_sender_ne]

/-- For each slot that is offered a value, one offer succeeds. -/
theorem existsUnique_succeeds {n j : Nat} {os : List (Offer α)} (hj : j < n)
    (hoffer : ∃ o ∈ os, o.sender = j) : ∃! k, Succeeds n os k j := by
  simp only [succeeds_iff, hj, true_and]
  have hexists : ∃ k : Nat, os[k]?.map Offer.sender = some j := by
    obtain ⟨o, ho, rfl⟩ := hoffer
    obtain ⟨k, hk⟩ := List.mem_iff_getElem?.mp ho
    exact ⟨k, congrArg (Option.map Offer.sender) hk⟩
  refine ⟨Nat.find hexists, ⟨Nat.find_spec hexists, fun i => Nat.find_min hexists⟩, ?_⟩
  rintro k ⟨hk, hfirst⟩
  apply le_antisymm
  · exact not_lt.mp fun hlt => hfirst _ hlt (Nat.find_spec hexists)
  · exact Nat.find_min' hexists hk

/-! ## What can be observed -/

theorem isComplete_iff_accepted (t : AcceptanceTable α) :
    t.isComplete = true ↔ t.accepted = t.size := by
  rw [isComplete, accepted, size, List.all_eq_true, List.countP_eq_length]

theorem HoldsFirst.slots_eq (h : t.HoldsFirst n os) :
    t.slots = (List.range n).map (firstValue? os) := by
  apply List.ext_getElem
  · rw [List.length_map, List.length_range]
    exact h.size_eq
  · intro j hj _
    rw [getElem_slots hj, List.getElem_map, List.getElem_range, h.slot j (h.size_eq ▸ hj)]

theorem HoldsFirst.get?_eq (h : t.HoldsFirst n os) (j : Nat) :
    t.get? j = if j < n then firstValue? os j else none := by
  split_ifs with hj
  · exact h.slot j hj
  · exact get?_eq_none_of_size_le (h.size_eq.symm ▸ not_lt.mp hj)

theorem HoldsFirst.accepted_eq (h : t.HoldsFirst n os) :
    t.accepted = (sendersBelow n os).card := by
  have hsenders : sendersBelow n os =
      ((List.range n).filter fun j => (firstValue? os j).isSome).toFinset := by
    ext j
    simp [sendersBelow, isSome_firstValue?, and_comm]
  rw [accepted, h.slots_eq, List.countP_map, List.countP_eq_length_filter, hsenders,
    List.toFinset_card_of_nodup (List.nodup_range.filter _)]
  rfl

theorem HoldsFirst.values?_eq_some (h : t.HoldsFirst n os) {vs : List α} :
    t.values? = some vs ↔ vs.map some = (List.range n).map (firstValue? os) := by
  rw [values?, mapM_id_eq_some, h.slots_eq, eq_comm]

/-- A table with `n` slots and its answers are those of a map that keeps first values. -/
structure KeepsFirstValues (n : Nat) (os : List (Offer α)) (answers : List Bool)
    (t : AcceptanceTable α) : Prop where
  length_answers : answers.length = os.length
  /-- An offer succeeds if it is for a slot for which there was no offer before. -/
  answer_iff : ∀ k o, os[k]? = some o →
    (answers[k]? = some true ↔ o.sender < n ∧ ∀ o' ∈ os.take k, o'.sender ≠ o.sender)
  /-- The value of a sender is the first one offered for it, if there is a slot. -/
  get?_eq : ∀ j, t.get? j = if j < n then firstValue? os j else none
  /-- As many values are accepted as there are senders with a slot. -/
  accepted_eq : t.accepted = (sendersBelow n os).card
  isComplete_iff : t.isComplete = true ↔ t.accepted = n
  isSome_values? : t.values?.isSome = t.isComplete
  /-- These are the first values, in the order of the senders. -/
  values?_eq_some : ∀ vs,
    t.values? = some vs → vs.map some = (List.range n).map (firstValue? os)

theorem keepsFirstValues_offerAll (n : Nat) (os : List (Offer α)) :
    KeepsFirstValues n os ((empty n).offerAll os).1 ((empty n).offerAll os).2 := by
  have h : ((empty n).offerAll os).2.HoldsFirst n os := (holdsFirst_empty n).offerAll os
  constructor
  case length_answers => exact length_offerAll _ _
  case answer_iff => exact fun k o => (holdsFirst_empty n).getElem?_offerAll
  case get?_eq => exact h.get?_eq
  case accepted_eq => exact h.accepted_eq
  case isComplete_iff => rw [isComplete_iff_accepted, h.size_eq]
  case isSome_values? => exact AcceptanceTable.isSome_values? _
  case values?_eq_some => exact fun vs => h.values?_eq_some.mp

/--
A table is a map that is written once: its answers and all that can be observed
of it are determined by the first offer for each sender.  Hence, in whatever
order several threads make their offers, one of them succeeds for each sender.
-/
theorem write_once (n : Nat) :
    (∀ os : List (Offer α),
      KeepsFirstValues n os ((empty n).offerAll os).1 ((empty n).offerAll os).2) ∧
    ∀ (threads : List (List (Offer α))) (merged : List (Offer α)), Merges threads merged →
      ∀ j < n, (∃ calls ∈ threads, ∃ o ∈ calls, o.sender = j) →
        ∃! k, Succeeds n merged k j := by
  refine ⟨keepsFirstValues_offerAll n, ?_⟩
  rintro threads merged hmerges j hj ⟨calls, hcalls, o, ho, hsender⟩
  exact existsUnique_succeeds hj ⟨o, hmerges.mem_iff.mpr ⟨calls, hcalls, ho⟩, hsender⟩

end AcceptanceTable

end Quorum
