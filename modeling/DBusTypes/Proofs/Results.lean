/-!
# Results of steps that may fail

When a computation in several steps succeeds, and when it fails: each step is taken apart from what
follows it.

* `bind_eq_ok`, `bind_eq_error` — one step after the other
* `mapError_eq_ok`, `mapError_eq_error` — a step whose errors are put into others
-/

namespace DBusTypes

variable {ε ε' α β : Type} {x : Except ε α}

theorem bind_eq_ok {f : α → Except ε β} {b : β} :
    x >>= f = .ok b ↔ ∃ a, x = .ok a ∧ f a = .ok b := by
  cases x <;> simp [bind, Except.bind]

/-- The same where the first step gives nothing. -/
theorem seq_eq_ok {x : Except ε Unit} {y : Except ε β} {b : β} :
    (x >>= fun _ => y) = .ok b ↔ x = .ok () ∧ y = .ok b := by
  cases x <;> simp [bind, Except.bind]

theorem bind_eq_error {f : α → Except ε β} {e : ε} :
    x >>= f = .error e ↔ x = .error e ∨ ∃ a, x = .ok a ∧ f a = .error e := by
  cases x <;> simp [bind, Except.bind]

theorem mapError_eq_ok {g : ε → ε'} {a : α} : x.mapError g = .ok a ↔ x = .ok a := by
  cases x with
  | error e =>
    show (Except.error (g e) : Except ε' α) = .ok a ↔ _
    simp
  | ok a' =>
    show (Except.ok a' : Except ε' α) = .ok a ↔ _
    simp

theorem mapError_eq_error {g : ε → ε'} {e' : ε'} :
    x.mapError g = .error e' ↔ ∃ e, x = .error e ∧ g e = e' := by
  cases x with
  | error e =>
    show (Except.error (g e) : Except ε' α) = .error e' ↔ _
    simp
  | ok a =>
    show (Except.ok a : Except ε' α) = .error e' ↔ _
    simp

end DBusTypes
