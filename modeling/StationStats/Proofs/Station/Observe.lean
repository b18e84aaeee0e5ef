import StationStats.Proofs.Row.Format
import StationStats.Proofs.Station.Key
import StationStats.Station.Table

/-!
The plain way to fill a table: observations are added one after the other, each under the key of its
name. What scanning, reading and merging do to a table is stated in terms of it.
-/

namespace StationStats

/-- The state that an operation leaves behind, with or without an error. -/
def stateAfter {ε σ α : Type} (operation : EStateM ε σ α) (s : σ) : σ :=
  match operation s with
  | .ok _ s' => s'
  | .error _ s' => s'

theorem stateAfter_of_ok {ε σ α : Type} {operation : EStateM ε σ α} {s s' : σ} {a : α}
    (h : operation s = .ok a s') : stateAfter operation s = s' := by
  rw [stateAfter, h]

theorem stateAfter_of_error {ε σ α : Type} {operation : EStateM ε σ α} {s s' : σ} {e : ε}
    (h : operation s = .error e s') : stateAfter operation s = s' := by
  rw [stateAfter, h]

namespace Table

variable {hash : KeyHash}

/-- Adds one observation. -/
def observe (o : Observation) : EStateM Fault (Table hash) Unit := fun t =>
  match Key.ofName o.name with
  | .error fault => .error fault t
  | .ok key => add key o.tenths t

/-- Adds observations in order and stops at the first that the table refuses. -/
def observeAll : List Observation → EStateM Fault (Table hash) Unit
  | [] => fun t => .ok () t
  | o :: rest => fun t =>
    match observe o t with
    | .error fault t => .error fault t
    | .ok _ t => observeAll rest t

@[simp] theorem observeAll_nil (t : Table hash) : observeAll [] t = .ok () t := rfl

theorem observeAll_cons_ok_iff {o : Observation} {rest : List Observation} {t t' : Table hash} :
    observeAll (o :: rest) t = .ok () t' ↔
      ∃ between, observe o t = .ok () between ∧ observeAll rest between = .ok () t' := by
  cases hObserve : observe o t <;> simp [observeAll, hObserve]

/-- Adding two lists one after the other is adding them as one. -/
theorem observeAll_append_ok_iff {before after : List Observation} {t t' : Table hash} :
    observeAll (before ++ after) t = .ok () t' ↔
      ∃ between, observeAll before t = .ok () between ∧ observeAll after between = .ok () t' := by
  induction before generalizing t with
  | nil => simp
  | cons o before ih =>
      simp only [List.cons_append, observeAll_cons_ok_iff, ih]
      constructor
      · rintro ⟨first, hFirst, between, hBetween, hAfter⟩
        exact ⟨between, ⟨first, hFirst, hBetween⟩, hAfter⟩
      · rintro ⟨between, ⟨first, hFirst, hBetween⟩, hAfter⟩
        exact ⟨first, hFirst, between, hBetween, hAfter⟩

/-- The first observation that is refused ends the run. -/
theorem observeAll_append_eq_error {before after : List Observation} {o : Observation}
    {fault : Fault} {t between t' : Table hash} (hBefore : observeAll before t = .ok () between)
    (hRefused : observe o between = .error fault t') :
    observeAll (before ++ o :: after) t = .error fault t' := by
  induction before generalizing t with
  | nil =>
      cases hBefore
      simp only [List.nil_append, observeAll, hRefused]
  | cons first before ih =>
      obtain ⟨next, hFirst, hRest⟩ := observeAll_cons_ok_iff.mp hBefore
      simp only [List.cons_append, observeAll, hFirst, ih hRest]

/-- A name that fits a key is added under the key that packs it. -/
theorem observe_eq {o : Observation} (h : o.name.length ≤ keyBytes) (t : Table hash) :
    observe o t = add (Key.packed o.name) o.tenths t := by
  simp only [observe, Key.ofName_eq h]

end Table

end StationStats
