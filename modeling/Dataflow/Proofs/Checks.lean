import Mathlib.Logic.Basic
import Mathlib.Tactic.Common

/-!
# When a chain of checks succeeds

A check is a computation in `Except ε` that goes through a list of guards, each of which may throw.
These lemmas take such a chain apart from the front: it succeeds exactly when no guard throws and
the rest succeeds, and it fails with what the first guard throws that does.
-/

namespace Dataflow

namespace Check

variable {ε α β : Type}

theorem bind_eq_ok_iff {x : Except ε α} {f : α → Except ε β} {b : β} :
    (x >>= f) = .ok b ↔ ∃ a, x = .ok a ∧ f a = .ok b := by
  cases x <;> simp [bind, Except.bind]

/-- One check, and then another. -/
theorem unit_bind_eq_ok_iff {x : Except ε Unit} {f : Unit → Except ε β} {b : β} :
    (x >>= f) = .ok b ↔ x = .ok () ∧ f () = .ok b :=
  bind_eq_ok_iff.trans ⟨fun ⟨_, h⟩ ↦ h, fun h ↦ ⟨(), h⟩⟩

theorem throw_bind (e : ε) (f : α → Except ε β) : (throw e >>= f : Except ε β) = throw e :=
  rfl

theorem pure_eq_ok_iff {a b : α} : (pure a : Except ε α) = .ok b ↔ a = b :=
  ⟨Except.ok.inj, congrArg _⟩

theorem throw_ne_ok {e : ε} {a : α} : (throw e : Except ε α) ≠ .ok a :=
  nofun

theorem guard_eq_ok_iff {c : Prop} [Decidable c] {e : ε} {x : Except ε α} {a : α} :
    (if c then throw e else x) = .ok a ↔ ¬c ∧ x = .ok a := by
  split <;> simp_all [throw_ne_ok]

/-- A guard against something that needs a permission, where the permission is looked at first. -/
theorem not_unpermitted_iff {c : Prop} [Decidable c] {b : Bool} :
    ¬(!b && decide c) = true ↔ (c → b = true) := by
  cases b <;> simp

/-- The same guard, where the permission is looked at second. -/
theorem not_unpermitted_iff' {c : Prop} [Decidable c] {b : Bool} :
    ¬(decide c && !b) = true ↔ (c → b = true) := by
  cases b <;> simp

/-- A check of every item of a list. -/
theorem forM_eq_ok_iff {f : α → Except ε Unit} {l : List α} :
    l.forM f = .ok () ↔ ∀ a ∈ l, f a = .ok () := by
  induction l with
  | nil => exact ⟨nofun, fun _ ↦ rfl⟩
  | cons a l ih =>
    rw [show (a :: l).forM f = (f a >>= fun _ ↦ l.forM f) from rfl, unit_bind_eq_ok_iff,
      List.forall_mem_cons, ih]

/-- A check that succeeds has nothing to say. -/
theorem exists_ok_iff {x : Except ε Unit} : (∃ a, x = .ok a) ↔ x = .ok () :=
  ⟨fun ⟨_, h⟩ ↦ h, fun h ↦ ⟨(), h⟩⟩

/-- What does not succeed throws. -/
theorem exists_error_iff {x : Except ε α} : (∃ e, x = .error e) ↔ ¬∃ a, x = .ok a := by
  cases x <;> simp

/-! ### And when it does not -/

theorem unit_bind_eq_error_iff {x : Except ε Unit} {f : Unit → Except ε β} {e : ε} :
    (x >>= f) = .error e ↔ x = .error e ∨ x = .ok () ∧ f () = .error e := by
  cases x <;> simp [bind, Except.bind]

theorem pure_ne_error {a : α} {e : ε} : (pure a : Except ε α) ≠ .error e :=
  nofun

theorem guard_eq_error_iff {c : Prop} [Decidable c] {e e' : ε} {x : Except ε α} :
    (if c then throw e' else x) = .error e ↔ c ∧ e' = e ∨ ¬c ∧ x = .error e := by
  split <;> simp_all [throw, throwThe, MonadExceptOf.throw]

/-- A complaint about a list is a complaint about one of its items. -/
theorem exists_of_forM_eq_error {f : α → Except ε Unit} {l : List α} {e : ε}
    (h : l.forM f = .error e) : ∃ a ∈ l, f a = .error e := by
  induction l with
  | nil => cases h
  | cons a l ih =>
    rcases unit_bind_eq_error_iff.1 h with ha | ⟨-, hl⟩
    · exact ⟨a, List.mem_cons_self .., ha⟩
    · obtain ⟨b, hb, hbe⟩ := ih hl
      exact ⟨b, .tail _ hb, hbe⟩

end Check

end Dataflow
