import Mathlib

/-!
# Computations that can fail

A computation in `Except` succeeds when each of its steps does, and so does one
that runs over a list; a run over a list that fails does so with the failure of
its first entry that has one.  The same holds in `Option`.
-/

namespace Quorum

variable {ε α β : Type}

theorem bind_eq_ok {x : Except ε α} {f : α → Except ε β} {b : β} :
    (x >>= f) = .ok b ↔ ∃ a, x = .ok a ∧ f a = .ok b := by
  cases x with
  | error e =>
    constructor
    · intro h
      cases h
    · rintro ⟨a, h, -⟩
      cases h
  | ok a =>
    constructor
    · intro h
      exact ⟨a, rfl, h⟩
    · rintro ⟨a', h, hf⟩
      cases h
      exact hf

theorem bind_eq_error {x : Except ε α} {f : α → Except ε β} {e : ε} :
    (x >>= f) = .error e ↔ x = .error e ∨ ∃ a, x = .ok a ∧ f a = .error e := by
  cases x with
  | error e' =>
    constructor
    · intro h
      exact Or.inl (by cases h; rfl)
    · rintro (h | ⟨a, h, -⟩)
      · cases h
        rfl
      · cases h
  | ok a =>
    constructor
    · intro h
      exact Or.inr ⟨a, rfl, h⟩
    · rintro (h | ⟨a', h, hf⟩)
      · cases h
      · cases h
        exact hf

theorem map_eq_ok {x : Except ε α} {f : α → β} {b : β} :
    x.map f = .ok b ↔ ∃ a, x = .ok a ∧ f a = b := by
  cases x <;> simp [Except.map]

theorem map_eq_error {x : Except ε α} {f : α → β} {e : ε} :
    x.map f = .error e ↔ x = .error e := by
  cases x <;> simp [Except.map]

theorem mapM_eq_ok {f : α → Except ε β} {xs : List α} {ys : List β} :
    xs.mapM f = .ok ys ↔ List.Forall₂ (fun x y => f x = .ok y) xs ys := by
  induction xs generalizing ys with
  | nil =>
    rw [List.mapM_nil, List.forall₂_nil_left_iff]
    constructor
    · intro h
      cases h
      rfl
    · rintro rfl
      rfl
  | cons x xs ih =>
    rw [List.mapM_cons, bind_eq_ok, List.forall₂_cons_left_iff]
    constructor
    · rintro ⟨y, hy, hrest⟩
      obtain ⟨zs, hzs, hcons⟩ := bind_eq_ok.mp hrest
      cases hcons
      exact ⟨y, zs, hy, ih.mp hzs, rfl⟩
    · rintro ⟨y, zs, hy, hzs, rfl⟩
      exact ⟨y, hy, bind_eq_ok.mpr ⟨zs, ih.mpr hzs, rfl⟩⟩

/-- A run over a list whose steps succeed under a condition, with a known result. -/
theorem mapM_eq_ok_map {f : α → Except ε β} {p : α → Prop} {g : α → β}
    (hf : ∀ x y, f x = .ok y ↔ p x ∧ y = g x) {xs : List α} {ys : List β} :
    xs.mapM f = .ok ys ↔ (∀ x ∈ xs, p x) ∧ ys = xs.map g := by
  rw [mapM_eq_ok]
  induction xs generalizing ys with
  | nil => simp
  | cons x xs ih =>
    rw [List.forall₂_cons_left_iff, List.forall_mem_cons, List.map_cons]
    constructor
    · rintro ⟨y, zs, hy, hzs, rfl⟩
      obtain ⟨hx, rfl⟩ := (hf x y).mp hy
      obtain ⟨hxs, rfl⟩ := ih.mp hzs
      exact ⟨⟨hx, hxs⟩, rfl⟩
    · rintro ⟨⟨hx, hxs⟩, rfl⟩
      exact ⟨g x, xs.map g, (hf x _).mpr ⟨hx, rfl⟩, ih.mpr ⟨hxs, rfl⟩, rfl⟩

/-- A run over a list depends on what its step does with the members only. -/
theorem mapM_congr_mem {f g : α → Except ε β} {xs : List α}
    (h : ∀ x ∈ xs, f x = g x) : xs.mapM f = xs.mapM g := by
  induction xs with
  | nil => rfl
  | cons x xs ih =>
    rw [List.mapM_cons, List.mapM_cons, h x List.mem_cons_self,
      ih fun y hy => h y (List.mem_cons_of_mem x hy)]

/-- It depends on the results of its steps only. -/
theorem mapM_congr_map {f : α → Except ε β} {xs ys : List α}
    (h : xs.map f = ys.map f) : xs.mapM f = ys.mapM f := by
  have hsteps : ∀ zs : List α, zs.mapM f = (zs.map f).mapM id := by
    intro zs
    rw [List.mapM_map]
    rfl
  rw [hsteps, hsteps, h]

theorem mapM_eq_error {f : α → Except ε β} {xs : List α} {e : ε} :
    xs.mapM f = .error e ↔
      ∃ before x after, xs = before ++ x :: after ∧
        (∀ y ∈ before, ∃ b, f y = .ok b) ∧ f x = .error e := by
  induction xs with
  | nil =>
    constructor
    · intro h
      cases h
    · rintro ⟨before, x, after, hxs, -⟩
      cases before <;> cases hxs
  | cons x xs ih =>
    rw [List.mapM_cons, bind_eq_error]
    constructor
    · rintro (hx | ⟨b, hb, hrest⟩)
      · exact ⟨[], x, xs, rfl, by simp, hx⟩
      · rcases bind_eq_error.mp hrest with hxs | ⟨bs, -, hok⟩
        · obtain ⟨before, z, after, rfl, hbefore, hz⟩ := ih.mp hxs
          refine ⟨x :: before, z, after, rfl, ?_, hz⟩
          intro y hy
          rcases List.mem_cons.mp hy with rfl | hy
          · exact ⟨b, hb⟩
          · exact hbefore y hy
        · cases hok
    · rintro ⟨before, z, after, hxs, hbefore, hz⟩
      cases before with
      | nil =>
        cases hxs
        exact Or.inl hz
      | cons y before =>
        cases hxs
        obtain ⟨b, hb⟩ := hbefore x List.mem_cons_self
        refine Or.inr ⟨b, hb, bind_eq_error.mpr (Or.inl (ih.mpr ?_))⟩
        exact ⟨before, z, after, rfl,
          fun y hy => hbefore y (List.mem_cons_of_mem x hy), hz⟩

/-! ## Runs over a list with positions -/

/-- A run over the entries of a list and their positions, entry by entry. -/
theorem mapM_zipIdx_eq_ok {f : α × Nat → Except ε β} {xs : List α} {ys : List β} :
    xs.zipIdx.mapM f = .ok ys ↔
      ys.length = xs.length ∧
        ∀ j x, xs[j]? = some x → ∃ y, ys[j]? = some y ∧ f (x, j) = .ok y := by
  rw [mapM_eq_ok, List.forall₂_iff_get]
  constructor
  · rintro ⟨hlength, h⟩
    rw [List.length_zipIdx] at hlength
    refine ⟨hlength.symm, fun j x hx => ?_⟩
    obtain ⟨hj, rfl⟩ := List.getElem?_eq_some_iff.mp hx
    have hget := h j (by rwa [List.length_zipIdx]) (hlength ▸ hj)
    refine ⟨ys[j], List.getElem?_eq_getElem _, ?_⟩
    simpa using hget
  · rintro ⟨hlength, h⟩
    refine ⟨by rw [List.length_zipIdx, hlength], fun j hj hj' => ?_⟩
    rw [List.length_zipIdx] at hj
    obtain ⟨y, hy, hf⟩ := h j xs[j] (List.getElem?_eq_getElem hj)
    obtain ⟨_, rfl⟩ := List.getElem?_eq_some_iff.mp hy
    simpa using hf

/-- Such a run fails at the first position at which it does. -/
theorem mapM_zipIdx_eq_error {f : α × Nat → Except ε β} {xs : List α} {e : ε} :
    xs.zipIdx.mapM f = .error e ↔
      ∃ j x, xs[j]? = some x ∧ f (x, j) = .error e ∧
        ∀ k < j, ∀ y, xs[k]? = some y → ∃ b, f (y, k) = .ok b := by
  rw [mapM_eq_error]
  constructor
  · rintro ⟨before, entry, after, hxs, hbefore, hf⟩
    have hentry : xs.zipIdx[before.length]? = some entry := by
      rw [hxs, List.getElem?_append_right (le_refl _), Nat.sub_self]
      rfl
    rw [List.getElem?_zipIdx, Option.map_eq_some_iff] at hentry
    obtain ⟨x, hx, rfl⟩ := hentry
    rw [Nat.zero_add] at hf
    refine ⟨before.length, x, hx, hf, fun k hk y hy => ?_⟩
    have hmem : (y, k) ∈ before := by
      have hk' : xs.zipIdx[k]? = some (y, k) := by
        rw [List.getElem?_zipIdx, hy, Nat.zero_add]
        rfl
      rw [hxs, List.getElem?_append_left hk] at hk'
      exact List.mem_of_getElem? hk'
    exact hbefore _ hmem
  · rintro ⟨j, x, hx, hf, hbefore⟩
    obtain ⟨hj, rfl⟩ := List.getElem?_eq_some_iff.mp hx
    have hj' : j < xs.zipIdx.length := by rwa [List.length_zipIdx]
    refine ⟨xs.zipIdx.take j, (xs[j], j), xs.zipIdx.drop (j + 1), ?_, ?_, hf⟩
    · have hget : xs.zipIdx[j] = (xs[j], j) := by simp
      rw [← hget, List.cons_getElem_drop_succ, List.take_append_drop]
    · rintro entry hentry
      obtain ⟨k, hk, rfl⟩ := List.mem_iff_getElem.mp hentry
      rw [List.length_take] at hk
      have hklt : k < xs.length := by
        rw [List.length_zipIdx] at hk
        omega
      have hget : (xs.zipIdx.take j)[k] = (xs[k], k) := by simp
      rw [hget]
      exact hbefore k (by omega) _ (List.getElem?_eq_getElem hklt)

theorem mapM_eq_some {f : α → Option β} {xs : List α} {ys : List β} :
    xs.mapM f = some ys ↔ List.Forall₂ (fun x y => f x = some y) xs ys := by
  induction xs generalizing ys with
  | nil =>
    rw [List.mapM_nil, List.forall₂_nil_left_iff]
    constructor
    · intro h
      cases h
      rfl
    · rintro rfl
      rfl
  | cons x xs ih =>
    rw [List.mapM_cons, Option.bind_eq_bind, Option.bind_eq_some_iff, List.forall₂_cons_left_iff]
    constructor
    · rintro ⟨y, hy, hrest⟩
      obtain ⟨zs, hzs, hcons⟩ := Option.bind_eq_some_iff.mp hrest
      cases hcons
      exact ⟨y, zs, hy, ih.mp hzs, rfl⟩
    · rintro ⟨y, zs, hy, hzs, rfl⟩
      exact ⟨y, hy, Option.bind_eq_some_iff.mpr ⟨zs, ih.mpr hzs, rfl⟩⟩

theorem mapM_id_eq_some {slots : List (Option α)} {vs : List α} :
    slots.mapM id = some vs ↔ slots = vs.map some := by
  rw [mapM_eq_some, ← List.forall₂_eq_eq_eq, List.forall₂_map_right_iff]
  rfl

/-- A run that succeeds says what each of its steps gives. -/
theorem getElem?_of_mapM_eq_some {f : α → Option β} {xs : List α} {ys : List β}
    (h : xs.mapM f = some ys) {i : Nat} {x : α} {y : β} (hx : xs[i]? = some x)
    (hy : ys[i]? = some y) : f x = some y := by
  obtain ⟨hi, rfl⟩ := List.getElem?_eq_some_iff.mp hx
  obtain ⟨hj, rfl⟩ := List.getElem?_eq_some_iff.mp hy
  exact (mapM_eq_some.mp h).get hi hj
end Quorum
