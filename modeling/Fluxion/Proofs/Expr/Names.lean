import Fluxion.Proofs.Expr.Evaluation
import Fluxion.Proofs.Text.ByteOrder

/-! The sorted names of an expression are what its evaluation depends on, all of them and nothing
else. -/
namespace Fluxion.Expr

/-- A name goes in its place among names that are sorted. -/
theorem insertName_sorted {name : String} {sorted : List String} (h : sorted.Pairwise (· < ·)) :
    (insertName name sorted).Pairwise (· < ·) := by
  induction sorted with
  | nil => exact List.pairwise_singleton _ _
  | cons first rest ih =>
    obtain ⟨hfirst, hrest⟩ := List.pairwise_cons.mp h
    rw [insertName]
    split
    · next hlt =>
      refine List.pairwise_cons.mpr ⟨fun other hother => ?_, h⟩
      rcases List.mem_cons.mp hother with rfl | hother
      · exact hlt
      · exact hlt.trans (hfirst other hother)
    · next hnotlt =>
      split
      · exact h
      · next hne =>
        refine List.pairwise_cons.mpr ⟨fun other hother => ?_, ih hrest⟩
        rcases mem_insertName.mp hother with rfl | hother
        · exact lt_of_le_of_ne (not_lt.mp hnotlt) (Ne.symm hne)
        · exact hfirst other hother

theorem foldl_insertName_sorted (names : List String) {sorted : List String}
    (h : sorted.Pairwise (· < ·)) :
    (names.foldl (fun sorted name => insertName name sorted) sorted).Pairwise (· < ·) := by
  induction names generalizing sorted with
  | nil => exact h
  | cons name names ih => exact ih (insertName_sorted h)

theorem variableNames_sorted (e : Expr) : e.variableNames.Pairwise (· < ·) :=
  foldl_insertName_sorted e.names .nil

theorem variableNames_nodup (e : Expr) : e.variableNames.Nodup :=
  e.variableNames_sorted.imp ne_of_lt

/-- The first name in reading order without a value, told by the names before it. -/
theorem missing?_eq_some_iff {isMissing : String → Bool} {e : Expr} {fault : Diagnostic} :
    e.missing? isMissing = some fault ↔
      ∃ before name after, e.names = before ++ name :: after ∧ isMissing name = true ∧
        (∀ other ∈ before, isMissing other = false) ∧ fault = .unbound name := by
  simp only [missing?, Option.map_eq_some_iff, List.find?_eq_some_iff_append]
  constructor
  · rintro ⟨name, ⟨hname, before, after, hnames, hbefore⟩, rfl⟩
    exact ⟨before, name, after, hnames, hname, by simpa using hbefore, rfl⟩
  · rintro ⟨before, name, after, hnames, hname, hbefore, rfl⟩
    exact ⟨name, ⟨hname, before, after, hnames, by simpa using hbefore⟩, rfl⟩

/-- An expression has a value exactly if all its names have one, and else the fault of its first
name in reading order that has none: no operand is skipped, not even one that zero multiplies.
Nothing but the values of its names decides what its value or fault is. Its names stand in the
increasing order of their bytes, and are those that it mentions. -/
theorem evaluateWith_depends_on_names (e : Expr) :
    (∀ {α : Type} [Scalar α] (lookup : String → Option α),
      ((∃ value, e.evaluateWith lookup = .ok value) ↔
        ∀ name ∈ e.variableNames, (lookup name).isSome) ∧
      ((∃ value, e.evaluateWith lookup = .ok value) ↔
        ∀ name, e.mentions name = true → (lookup name).isSome) ∧
      ∀ fault, e.evaluateWith lookup = .error fault ↔
        ∃ before name after, e.names = before ++ name :: after ∧ lookup name = none ∧
          (∀ other ∈ before, (lookup other).isSome) ∧ fault = .unbound name) ∧
    (∀ {α : Type} [Scalar α] (lookup other : String → Option α),
      (∀ name ∈ e.variableNames, lookup name = other name) →
        e.evaluateWith lookup = e.evaluateWith other) ∧
    (e.variableNames.Pairwise fun name other => bytes name < bytes other) ∧
    ∀ name, name ∈ e.variableNames ↔ e.mentions name = true := by
  have hmentions (name : String) : name ∈ e.variableNames ↔ e.mentions name = true :=
    mem_variableNames.trans mentions_iff.symm
  have hsorted : e.variableNames.Pairwise fun name other => bytes name < bytes other :=
    e.variableNames_sorted.imp bytes_lt_iff.mpr
  refine ⟨fun lookup => ?_, fun lookup other => ?_, hsorted, hmentions⟩
  · simp only [← hmentions, mem_variableNames]
    refine ⟨evaluateWith_isOk_iff, evaluateWith_isOk_iff, fun fault => ?_⟩
    rw [evaluateWith_eq_error_iff, missing?_eq_some_iff]
    simp only [Option.isNone_iff_eq_none, Option.isNone_eq_false_iff]
  · simp only [mem_variableNames]
    exact evaluateWith_congr

/-- Zero times `y`, and then `x`, where `x` alone has a value. What else has one does not matter. -/
theorem evaluateWith_depends_on_names_product :
    let product := sub (mul (.constant 0.0) (.variable "y")) (.variable "x")
    let lookup : String → Option Float := fun name => if name = "x" then some 2.0 else none
    let other : String → Option Float := fun name => if name = "y" then none else some 2.0
    product.variableNames = ["x", "y"] ∧
      (∀ name ∈ product.variableNames, lookup name = other name) ∧
      product.evaluateWith lookup = product.evaluateWith other ∧
      product.evaluateWith lookup = .error (.unbound "y") := by
  intro product lookup other
  have hnames : product.variableNames = ["x", "y"] := by decide
  have hagree : ∀ name ∈ product.variableNames, lookup name = other name := by
    intro name hname
    rw [hnames] at hname
    rcases List.mem_pair.mp hname with rfl | rfl <;> rfl
  obtain ⟨hlookup, hother, -⟩ := evaluateWith_depends_on_names product
  refine ⟨hnames, hagree, hother lookup other hagree, ((hlookup lookup).2.2 _).mpr ?_⟩
  exact ⟨[], "y", ["x"], rfl, rfl, by simp, rfl⟩

end Fluxion.Expr
