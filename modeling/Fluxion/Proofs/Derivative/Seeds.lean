import Fluxion.Proofs.Expr.Evaluation

/-! Seeds never disturb values. Over any scalars the parts of `ε` decide neither the value of a dual
evaluation nor whether there is one. -/
namespace Fluxion
variable {α : Type} [Scalar α]

namespace Dual

theorem apply_val (op : Operator) (a b : Dual α) :
    (op.apply a b).val = op.apply a.val b.val := by
  cases op <;> rfl

/-- The power rule asks what the parts of `ε` are, but only for the part of `ε` of the power. -/
theorem val_keepsOperators : KeepsOperators (Dual.val : Dual α → α) where
  ofDouble _ := rfl
  apply := apply_val

end Dual

namespace Expr

/-- What is seeded for a name are the values themselves. -/
theorem seeded_val (name : String) (lookup : String → Option α) (other : String) :
    (seeded name lookup other).map Dual.val = lookup other := by
  rw [seeded, Option.map_map]
  cases lookup other with
  | none => rfl
  | some value =>
    rw [Option.map_some, Function.comp_apply]
    split <;> rfl

/-- A seeded evaluation carries the plain value. -/
theorem evaluateWith_of_seeded {e : Expr} {name : String} {lookup : String → Option α} {v : Dual α}
    (hv : e.evaluateWith (seeded name lookup) = .ok v) : e.evaluateWith lookup = .ok v.val := by
  rw [← evaluateWith_map Dual.val_keepsOperators fun other _ => seeded_val name lookup other, hv]
  rfl

/-- Over dual numbers an expression has the fault or the value that it has over their values, for
any scalars and whatever the parts of `ε` are. So evaluations in which the names have the same
values, seeded in any two ways, give the same value or fault. -/
theorem evaluateWith_ignores_seeds (e : Expr) :
    (∀ lookup : String → Option (Dual α),
      (∀ fault, e.evaluateWith lookup = .error fault ↔
        e.evaluateWith (fun name => (lookup name).map Dual.val) = .error fault) ∧
      ∀ v, e.evaluateWith lookup = .ok v →
        e.evaluateWith (fun name => (lookup name).map Dual.val) = .ok v.val) ∧
    ∀ lookup other : String → Option (Dual α),
      (∀ name ∈ e.names, (lookup name).map Dual.val = (other name).map Dual.val) →
        (e.evaluateWith lookup).map Dual.val = (e.evaluateWith other).map Dual.val := by
  have hplain (lookup : String → Option (Dual α)) :
      (e.evaluateWith lookup).map Dual.val =
        e.evaluateWith fun name => (lookup name).map Dual.val :=
    evaluateWith_map Dual.val_keepsOperators fun _ _ => rfl
  refine ⟨fun lookup => ⟨fun fault => ?_, fun v hv => ?_⟩, fun lookup other h => ?_⟩
  · rw [← hplain lookup]
    cases e.evaluateWith lookup <;> simp [Except.map]
  · rw [← hplain lookup, hv]
    rfl
  · rw [hplain lookup, hplain other, evaluateWith_congr h]

/-- The power of `x` and `y` over dual numbers of dual numbers, with one seed infinite and another
no number, and a quotient in which `z` has no value. -/
theorem evaluateWith_ignores_seeds_power :
    let value : Dual Float := ⟨2.0, -0.0⟩
    let lookup : String → Option (Dual (Dual Float)) := fun name =>
      if name = "z" then none else some ⟨value, ⟨0.0 / 0.0, 1.0⟩⟩
    let other : String → Option (Dual (Dual Float)) := fun name =>
      if name = "z" then none else some ⟨value, ⟨0.0, 1.0 / 0.0⟩⟩
    let power := pow (.variable "x") (.variable "y")
    let quotient := div (.variable "x") (.variable "z")
    (∀ name ∈ power.names, (lookup name).map Dual.val = (other name).map Dual.val) ∧
      (power.evaluateWith lookup).map Dual.val = (power.evaluateWith other).map Dual.val ∧
      (∃ v, power.evaluateWith lookup = .ok v ∧
        power.evaluateWith (fun name => (lookup name).map Dual.val) = .ok v.val) ∧
      quotient.evaluateWith lookup = .error (.unbound "z") ∧
      quotient.evaluateWith (fun name => (lookup name).map Dual.val) = .error (.unbound "z") := by
  intro value lookup other power quotient
  have hvalues : ∀ name ∈ power.names, (lookup name).map Dual.val = (other name).map Dual.val := by
    intro name _
    by_cases hname : name = "z" <;> simp [lookup, other, hname]
  obtain ⟨hpower, hseeds⟩ := evaluateWith_ignores_seeds (α := Dual Float) power
  have hquotient := (evaluateWith_ignores_seeds (α := Dual Float) quotient).1 lookup
  have hv : power.evaluateWith lookup = .ok _ := rfl
  have hfault : quotient.evaluateWith lookup = .error (.unbound "z") := rfl
  exact ⟨hvalues, hseeds lookup other hvalues, ⟨_, hv, (hpower lookup).2 _ hv⟩, hfault,
    (hquotient.1 _).mp hfault⟩

end Expr
end Fluxion
