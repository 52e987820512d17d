import Fluxion.CommandLine.Report
import Fluxion.Proofs.Derivative.Rules
import Fluxion.Proofs.Program.Simulation

/-! What the command reports. Each fault has its line in the error stream, and a missing value takes
nothing from the output but its own line. A derivative has no names of its own, so its value is
never missing alone. -/
namespace Fluxion

namespace Expr
variable {name : String} {e d : Expr}

theorem variableNames_of_derivative (hd : e.derivative name = .ok d) :
    d.variableNames ⊆ e.variableNames := by
  intro other hother
  exact mem_variableNames.mpr (names_of_derivative hd (mem_variableNames.mp hother))

/-- Where an expression has a value, its derivative has one. -/
theorem evaluate_of_derivative (hd : e.derivative name = .ok d) {bindings : Bindings Float}
    (he : ∃ value, e.evaluate bindings = .ok value) : ∃ slope, d.evaluate bindings = .ok slope := by
  have hbound := evaluateWith_isOk_iff.mp he
  exact evaluateWith_isOk_iff.mpr fun other hother => hbound other (names_of_derivative hd hother)

/-- Where an expression compiles, its derivative does. -/
theorem compile_of_derivative (hd : e.derivative name = .ok d) {parameters : List String}
    (he : ∃ program, e.compile parameters = .ok program) :
    ∃ program, d.compile parameters = .ok program := by
  have hparameters := compile_isOk_iff.mp he
  exact compile_isOk_iff.mpr fun other hother => hparameters other (names_of_derivative hd hother)

end Expr

namespace CommandLine

def Line.printed : Line → String
  | .output text => text ++ "\n"
  | .error _ => ""

theorem foldl_printed {print : String → Line → String}
    (hprint : ∀ text line, print text line = text ++ line.printed) (lines : List Line)
    (text : String) : lines.foldl print text = text ++ String.join (lines.map Line.printed) := by
  induction lines generalizing text with
  | nil => simp
  | cons line lines ih =>
    rw [List.foldl_cons, ih, hprint, List.map_cons, String.join_cons, String.append_assoc]

theorem output_ofLines (lines : List Line) :
    (Outcome.ofLines lines).output = String.join (lines.map Line.printed) := by
  refine (foldl_printed (fun text line => ?_) lines "").trans String.empty_append
  cases line <;> simp [Line.printed, String.append_assoc]

theorem mem_errors_ofLines {lines : List Line} {text : String} :
    text ∈ (Outcome.ofLines lines).errors ↔ Line.error text ∈ lines := by
  rw [Outcome.ofLines, List.mem_filterMap]
  constructor
  · rintro ⟨line, hline, h⟩
    cases line with
    | output other => cases h
    | error other =>
      cases h
      exact hline
  · exact fun h => ⟨_, h, rfl⟩

section
variable {heading complaint : String} {bindings : Bindings Float} {e : Expr}

theorem error_eq_valueLine_iff {text : String} :
    Line.error text = valueLine heading complaint bindings e ↔
      ∃ fault, e.evaluate bindings = .error fault ∧ text = complaint ++ ": " ++ fault.message := by
  rw [valueLine]
  cases e.evaluate bindings <;> simp

theorem valueLine_of_value {x : Float} (h : e.evaluate bindings = .ok x) :
    valueLine heading complaint bindings e = .output (" " ++ heading ++ " " ++ doubleText x) := by
  rw [valueLine, h]

/-- The line of a value is printed unless there is none. -/
theorem valueLine_printed_eq_empty_iff :
    (valueLine heading complaint bindings e).printed = "" ↔
      ∃ fault, e.evaluate bindings = .error fault := by
  rw [valueLine]
  cases e.evaluate bindings <;> simp [Line.printed]

end

/-- `o.ShowsLabel a e label`: the label stands before the value of the expression, and again before
that of the derivative, wherever there is one. -/
structure Outcome.ShowsLabel (o : Outcome) (a : Arguments) (e : Expr) (label : String) : Prop where
  value {x : Float} : e.evaluate a.bindings = .ok x → ∃ rest, o.output =
    e.render ++ "\n" ++ (" " ++ padRight 16 label ++ " " ++ doubleText x ++ "\n") ++ rest
  slope {d : Expr} {x : Float} : e.derivative a.name = .ok d → d.evaluate a.bindings = .ok x →
    ∃ front, o.output =
      front ++ (" diff " ++ a.name ++ " " ++ padRight 9 label ++ " " ++ doubleText x ++ "\n")

section
variable {read : List String → Except Outcome Arguments} {arguments : List String} {a : Arguments}
  {e d : Expr} (ha : read arguments = .ok a) (he : Expr.parseWithin a.limit a.formula = .ok e)
include ha he

theorem runWith_eq_report :
    runWith read arguments = .ofLines (report a.bindings a.name e) := by
  simp only [runWith, answer, ha, he]

/-- The log of a run on a formula: a line for each of the three things that may be missing. -/
theorem mem_errors_runWith_iff {text : String} :
    text ∈ (runWith read arguments).errors ↔
      (∃ fault, e.evaluate a.bindings = .error fault ∧
        text = "cannot evaluate: " ++ fault.message) ∨
      (∃ fault, e.derivative a.name = .error fault ∧
        text = "cannot differentiate: " ++ fault.message) ∨
      ∃ d fault, e.derivative a.name = .ok d ∧ d.evaluate a.bindings = .error fault ∧
        text = "cannot evaluate derivative: " ++ fault.message := by
  rw [runWith_eq_report ha he, mem_errors_ofLines, report]
  cases hd : e.derivative a.name with
  | ok d => simp [error_eq_valueLine_iff]
  | error fault => simp [error_eq_valueLine_iff]

/-- The complaint about the value is logged exactly where there is no value. -/
theorem value_complaint_iff :
    (∃ reason, "cannot evaluate: " ++ reason ∈ (runWith read arguments).errors) ↔
      ∃ fault, e.evaluate a.bindings = .error fault := by
  simp only [mem_errors_runWith_iff ha he]
  constructor
  -- The three kinds of lines differ before their reasons begin.
  · rintro ⟨reason, ⟨fault, hfault, -⟩ | ⟨fault, -, h⟩ | ⟨d, fault, -, -, h⟩⟩
    · exact ⟨fault, hfault⟩
    · simp [← String.toList_inj] at h
    · simp [← String.toList_inj] at h
  · rintro ⟨fault, hfault⟩
    exact ⟨fault.message, .inl ⟨fault, hfault, rfl⟩⟩

/-- The complaint about the value of the derivative is logged exactly where there is a derivative
without a value. -/
theorem slope_complaint_iff :
    (∃ reason, "cannot evaluate derivative: " ++ reason ∈ (runWith read arguments).errors) ↔
      ∃ d fault, e.derivative a.name = .ok d ∧ d.evaluate a.bindings = .error fault := by
  simp only [mem_errors_runWith_iff ha he]
  constructor
  · rintro ⟨reason, ⟨fault, -, h⟩ | ⟨fault, -, h⟩ | ⟨d, fault, hd, hfault, -⟩⟩
    · simp [← String.toList_inj] at h
    · simp [← String.toList_inj] at h
    · exact ⟨d, fault, hd, hfault⟩
  · rintro ⟨d, fault, hd, hfault⟩
    exact ⟨fault.message, .inr (.inr ⟨d, fault, hd, hfault, rfl⟩)⟩

/-- The output of a run on a formula that has a derivative. -/
theorem output_runWith (hd : e.derivative a.name = .ok d) :
    (runWith read arguments).output = e.render ++ "\n" ++
      (valueLine (padRight 16 (bindingsLabel a.bindings)) "cannot evaluate" a.bindings e).printed ++
      (" diff " ++ padRight 11 a.name ++ " " ++ d.render ++ "\n") ++
      (valueLine ("diff " ++ a.name ++ " " ++ padRight 9 (bindingsLabel a.bindings))
        "cannot evaluate derivative" a.bindings d).printed := by
  rw [runWith_eq_report ha he, output_ofLines, report, hd]
  simp [Line.printed, String.append_assoc]

theorem runWith_showsLabel : (runWith read arguments).ShowsLabel a e (bindingsLabel a.bindings) where
  value hx := by
    rw [runWith_eq_report ha he, output_ofLines, report, List.map_cons, List.map_cons,
      String.join_cons, String.join_cons, valueLine_of_value hx, ← String.append_assoc]
    exact ⟨_, rfl⟩
  slope hd hx := by
    have hdiff (text : String) : " " ++ ("diff " ++ text) = " diff " ++ text := by
      rw [← String.append_assoc]
      rfl
    refine ⟨_, (output_runWith ha he hd).trans (congrArg (HAppend.hAppend _) ?_)⟩
    rw [valueLine_of_value hx]
    simp only [Line.printed, String.append_assoc, hdiff]

end

/-- The names of a derivative are names of the expression, so the derivative has a value under all
bindings under which the expression has one, and compiles over the same parameters. When the command
runs on a formula, with any reader of its arguments, it misses the value of the derivative only
together with that of the formula; and a value that is missing takes its own line from the output,
never that of the derivative. -/
theorem derivative_needs_no_further_value :
    (∀ {name : String} {e d : Expr}, e.derivative name = .ok d →
      d.variableNames ⊆ e.variableNames ∧
      (∀ bindings : Bindings Float, (∃ value, e.evaluate bindings = .ok value) →
        ∃ slope, d.evaluate bindings = .ok slope) ∧
      ∀ parameters : List String, (∃ program, e.compile parameters = .ok program) →
        ∃ program, d.compile parameters = .ok program) ∧
    ∀ {read : List String → Except Outcome Arguments} {arguments : List String} {a : Arguments}
      {e : Expr}, read arguments = .ok a → Expr.parseWithin a.limit a.formula = .ok e →
      (∀ reason, "cannot evaluate derivative: " ++ reason ∈ (runWith read arguments).errors →
        ∃ other, "cannot evaluate: " ++ other ∈ (runWith read arguments).errors) ∧
      ∀ d, e.derivative a.name = .ok d →
        ∃ value slope, (runWith read arguments).output = e.render ++ "\n" ++ value ++
            (" diff " ++ padRight 11 a.name ++ " " ++ d.render ++ "\n") ++ slope ∧
          (value = "" ↔
            ∃ reason, "cannot evaluate: " ++ reason ∈ (runWith read arguments).errors) ∧
          (slope = "" ↔
            ∃ reason, "cannot evaluate derivative: " ++ reason ∈ (runWith read arguments).errors) := by
  refine ⟨fun hd => ⟨Expr.variableNames_of_derivative hd, fun _ => Expr.evaluate_of_derivative hd,
    fun _ => Expr.compile_of_derivative hd⟩, ?_⟩
  intro read arguments a e ha he
  constructor
  · intro reason hreason
    obtain ⟨d, fault, hd, hfault⟩ := (slope_complaint_iff ha he).mp ⟨reason, hreason⟩
    rw [value_complaint_iff ha he]
    cases hvalue : e.evaluate a.bindings with
    | error fault => exact ⟨fault, rfl⟩
    | ok value =>
      obtain ⟨slope, hslope⟩ := Expr.evaluate_of_derivative hd ⟨value, hvalue⟩
      rw [hslope] at hfault
      cases hfault
  · intro d hd
    refine ⟨_, _, output_runWith ha he hd, ?_, ?_⟩
    · rw [valueLine_printed_eq_empty_iff, value_complaint_iff ha he]
    · rw [valueLine_printed_eq_empty_iff, slope_complaint_iff ha he]
      simp [hd]

/-- The product of `x` and `y`: over the parameters `x` and `y`, and in a run that binds only
`x`. -/
theorem derivative_needs_no_further_value_product :
    let product := Expr.mul (.variable "x") (.variable "y")
    let arguments := ["x * y", "--var", "x=2"]
    let a : Arguments := ⟨"x * y", [("x", 2.0)], "x", 512⟩
    ∃ d, product.derivative "x" = .ok d ∧ d.variableNames ⊆ product.variableNames ∧
      (∃ slope, d.evaluate [("y", 3.0), ("x", 2.0)] = .ok slope) ∧
      (∃ program, d.compile ["x", "y"] = .ok program) ∧
      readArguments arguments = .ok a ∧ Expr.parseWithin a.limit a.formula = .ok product ∧
      (∃ other, "cannot evaluate: " ++ other ∈ (run arguments).errors) ∧
      ∃ value slope, (run arguments).output = product.render ++ "\n" ++ value ++
          (" diff " ++ padRight 11 "x" ++ " " ++ d.render ++ "\n") ++ slope ∧
        (value = "" ↔ ∃ reason, "cannot evaluate: " ++ reason ∈ (run arguments).errors) ∧
        (slope = "" ↔
          ∃ reason, "cannot evaluate derivative: " ++ reason ∈ (run arguments).errors) := by
  intro product arguments a
  have hd : product.derivative "x" = .ok _ := rfl
  have ha : readArguments arguments = .ok a := by decide +kernel
  have he : Expr.parseWithin a.limit a.formula = .ok product := by decide +kernel
  have hlogged : "cannot evaluate derivative: " ++ "No value for variable 'y'" ∈
      (run arguments).errors := by
    decide +kernel
  obtain ⟨hderivative, hrun⟩ := derivative_needs_no_further_value
  obtain ⟨hnames, hvalue, hcompile⟩ := hderivative hd
  obtain ⟨hcomplaint, houtput⟩ := hrun ha he
  exact ⟨_, hd, hnames, hvalue _ ⟨_, rfl⟩, hcompile _ ⟨_, rfl⟩, ha, he, hcomplaint _ hlogged,
    houtput _ hd⟩

end CommandLine
end Fluxion
