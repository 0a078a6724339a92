/-
What is known of operations in sequence.

One operation after another gives a result only if both do, and otherwise stops where the
first of them stops.  Everything that is said later about longer runs takes them apart
with these.  An operation that cannot break a rule of use is said to be `NoFault`; a
sequence is, if each part is where the parts before it have led.
-/
import Codegen.Fault

namespace Codegen

variable {ε α β : Type}

theorem ok_bind (a : α) (f : α → Except ε β) : (Except.ok a >>= f) = f a := rfl

theorem of_bind_eq_ok {x : Except ε α} {f : α → Except ε β} {b : β} (h : x >>= f = .ok b) :
    ∃ a, x = .ok a ∧ f a = .ok b := by
  cases x with
  | error e => cases h
  | ok a => exact ⟨a, rfl, h⟩

theorem of_bind_eq_error {x : Except ε α} {f : α → Except ε β} {e : ε}
    (h : x >>= f = .error e) : x = .error e ∨ ∃ a, x = .ok a ∧ f a = .error e := by
  cases x with
  | error e' =>
      cases h
      exact Or.inl rfl
  | ok a => exact Or.inr ⟨a, rfl, h⟩

/-- Two operations in sequence do not stop for a reason that neither of them stops for. -/
theorem bind_ne_error {x : Except ε α} {f : α → Except ε β} {e : ε} (hx : x ≠ .error e)
    (hf : ∀ a, x = .ok a → f a ≠ .error e) : x >>= f ≠ .error e := by
  intro h
  rcases of_bind_eq_error h with herror | ⟨a, ha, herror⟩
  · exact hx herror
  · exact hf a ha herror

theorem map_eq_ok_iff {f : α → β} {x : Except ε α} {b : β} :
    x.map f = .ok b ↔ ∃ a, x = .ok a ∧ f a = b := by
  cases x <;> simp [Except.map]

theorem map_eq_error_iff {f : α → β} {x : Except ε α} {e : ε} :
    x.map f = .error e ↔ x = .error e := by
  cases x <;> simp [Except.map]

/-- Operations that stop for the same reasons give a result in the same cases. -/
theorem exists_ok_iff {x : Except ε α} {y : Except ε β}
    (h : ∀ e, x = .error e ↔ y = .error e) : (∃ a, x = .ok a) ↔ ∃ b, y = .ok b := by
  cases x with
  | error e => simp [(h e).mp rfl]
  | ok a =>
      cases y with
      | error e => exact absurd ((h e).mpr rfl) (by simp)
      | ok b => simp

theorem Stop.of_ofFault_ok {x : Except Fault α} {a : α}
    (h : (Stop.ofFault x : Except (Stop ε) α) = .ok a) : x = .ok a := by
  cases x with
  | error fault => cases h
  | ok b =>
      cases h
      rfl

theorem Stop.ofReject_inj {x y : Except ε α} (h : Stop.ofReject x = Stop.ofReject y) : x = y := by
  cases x with
  | ok a =>
      cases y with
      | ok b =>
          cases h
          rfl
      | error e => cases h
  | error e =>
      cases y with
      | ok b => cases h
      | error e' =>
          cases h
          rfl

/-! ### Operations that break no rule -/

/-- The operation gives a result or refuses its input. -/
def NoFault (x : Except (Stop ε) α) : Prop := ∀ fault, x ≠ .error (.fault fault)

namespace NoFault

theorem ok (a : α) : NoFault (.ok a : Except (Stop ε) α) := by
  intro fault h
  cases h

theorem reject (e : ε) : NoFault (.error (.reject e) : Except (Stop ε) α) := by
  intro fault h
  cases h

theorem bind {x : Except (Stop ε) α} {f : α → Except (Stop ε) β} (hx : NoFault x)
    (hf : ∀ a, x = .ok a → NoFault (f a)) : NoFault (x >>= f) := by
  intro fault
  exact bind_ne_error (hx fault) fun a ha => hf a ha fault

theorem map {x : Except (Stop ε) α} (hx : NoFault x) (f : α → β) : NoFault (x.map f) := by
  intro fault h
  exact hx fault (map_eq_error_iff.mp h)

/-- An operation without a fault has one of two outcomes. -/
theorem exists_ofReject {x : Except (Stop ε) α} (hx : NoFault x) :
    ∃ outcome, x = Stop.ofReject outcome := by
  cases x with
  | ok a => exact ⟨.ok a, rfl⟩
  | error stop =>
      cases stop with
      | reject e => exact ⟨.error e, rfl⟩
      | fault fault => exact absurd rfl (hx fault)

/-- Restating a rejection does not make it a fault. -/
theorem mapError {δ : Type} {x : Except (Stop ε) α} (hx : NoFault x) (f : ε → δ) :
    NoFault (x.mapError (Stop.map f)) := by
  cases x with
  | ok a => exact ok a
  | error stop =>
      cases stop with
      | reject e => exact reject (f e)
      | fault fault => exact absurd rfl (hx fault)

end NoFault

end Codegen
