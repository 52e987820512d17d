import Fluxion.Diagnostic

/-! Peeling apart computations that may fail. -/
namespace Fluxion
variable {ε α β : Type}

@[simp] theorem pure_eq_ok (a : α) : (pure a : Except ε α) = .ok a := rfl

@[simp] theorem ok_bind (a : α) (f : α → Except ε β) : (Except.ok a >>= f) = f a := rfl

@[simp] theorem error_bind (e : ε) (f : α → Except ε β) : (Except.error e >>= f) = .error e := rfl

/-- One spelling for sequencing. -/
@[simp] theorem bind_eq_bind (x : Except ε α) (f : α → Except ε β) : x.bind f = x >>= f := rfl

theorem bind_eq_ok {x : Except ε α} {f : α → Except ε β} {b : β} :
    x >>= f = .ok b ↔ ∃ a, x = .ok a ∧ f a = .ok b := by
  cases x <;> simp

theorem map_eq_ok {x : Except ε α} {f : α → β} {b : β} :
    x.map f = .ok b ↔ ∃ a, x = .ok a ∧ f a = b := by
  cases x <;> simp [Except.map]

theorem mapError_eq_ok {δ : Type} {x : Except ε α} {f : ε → δ} {a : α} :
    x.mapError f = .ok a ↔ x = .ok a := by
  cases x with
  | error e => exact iff_of_false nofun nofun
  | ok b => exact ⟨fun h => congrArg _ (Except.ok.inj h), fun h => congrArg _ (Except.ok.inj h)⟩

theorem exists_ok_iff {x : Except ε α} : (∃ a, x = .ok a) ↔ ∀ e, x ≠ .error e := by
  cases x <;> simp

/-- A sequence fails as its first part does, and else as the second. -/
theorem bind_eq_error_iff {x : Except ε α} {f : α → Except ε β} {first second : Option ε}
    (hx : ∀ e, x = .error e ↔ first = some e)
    (hf : ∀ a, x = .ok a → ∀ e, f a = .error e ↔ second = some e) (e : ε) :
    x >>= f = .error e ↔ first.or second = some e := by
  cases x with
  | error fault => simp [(hx fault).mp rfl]
  | ok a =>
    have hnone : first = none := by
      rw [Option.eq_none_iff_forall_ne_some]
      intro fault hfault
      cases (hx fault).mpr hfault
    simp [hnone, hf a rfl]

end Fluxion
