import Fluxion.Proofs.Program.Simulation

/-! A compiled program is its expression in another notation. Carried out on expressions in place of
numbers it puts the expression together again, so different expressions have different programs.
Compilation does not look at constants, which may be of any type: where they are words, programs
differ as soon as a bit does. -/
namespace Fluxion
variable {κ γ : Type}

namespace Program

/-- One instruction on a stack of expressions with its top first, where it can be carried out: a
parameter has to be there, and so have both operands. -/
def rebuild (parameters : List String) (stack : List (Expr κ)) :
    Instruction κ → Option (List (Expr κ))
  | .constant value => some (.constant value :: stack)
  | .parameter index => parameters[index]?.map fun name => .variable name :: stack
  | .apply op =>
    match stack with
    | right :: left :: stack => some (.binary op left right :: stack)
    | _ => none

def replay (p : Program κ) : Option (List (Expr κ)) :=
  p.instructions.foldlM (rebuild p.parameters) []

end Program

/-! Constants replaced throughout. -/

def Expr.map (f : κ → γ) : Expr κ → Expr γ
  | .constant value => .constant (f value)
  | .variable name => .variable name
  | .binary op left right => .binary op (left.map f) (right.map f)

def Instruction.map (f : κ → γ) : Instruction κ → Instruction γ
  | .constant value => .constant (f value)
  | .parameter index => .parameter index
  | .apply op => .apply op

def Program.map (f : κ → γ) (p : Program κ) : Program γ :=
  ⟨p.instructions.map (Instruction.map f), p.parameters, p.stackSize⟩

namespace Emission

def map (f : κ → γ) (s : Emission κ) : Emission γ :=
  ⟨s.instructions.map (Instruction.map f), s.height, s.peak⟩

theorem map_empty (f : κ → γ) : (empty : Emission κ).map f = empty := by simp [map, empty]

theorem push_map (f : κ → γ) (s : Emission κ) (instruction : Instruction κ) :
    (s.map f).push (instruction.map f) = (s.push instruction).map f := by
  cases instruction <;> simp [push, map, Instruction.map]

theorem emit_map (f : κ → γ) (parameters : List String) (e : Expr κ) (s : Emission κ) :
    emit parameters (e.map f) (s.map f) = (emit parameters e s).map (map f) := by
  induction e generalizing s with
  | constant value => exact congrArg Except.ok (push_map f s (.constant value))
  | «variable» name =>
    rw [Expr.map, emit_variable, emit_variable]
    split
    · exact congrArg Except.ok (push_map f s (.parameter _))
    · rfl
  | binary op l r ihl ihr =>
    rw [Expr.map, emit, emit, ihl]
    cases emit parameters l s with
    | error fault => rfl
    | ok sl =>
      change (emit parameters (r.map f) (sl.map f) >>= _) = _
      rw [ihr]
      cases hr : emit parameters r sl with
      | error fault => simp [hr, Except.map]
      | ok sr => simp [hr, Except.map, ← push_map, Instruction.map]

end Emission

namespace Expr
variable {parameters : List String} {e e' : Expr κ} {p p' : Program κ}

theorem compile_map (f : κ → γ) (parameters : List String) (e : Expr κ) :
    (e.map f).compile parameters = (e.compile parameters).map (Program.map f) := by
  rw [compile, compile, ← Emission.map_empty f, Emission.emit_map]
  cases Emission.emit parameters e .empty with
  | error fault => rfl
  | ok s => simp [Except.map, Program.map, Emission.map]

theorem code_length (parameters : List String) (e : Expr κ) :
    (e.code parameters).length = e.nodeCount := by
  induction e with
  | constant value => rfl
  | «variable» name => rfl
  | binary op l r ihl ihr =>
    simp only [code, List.length_append, ihl, ihr, List.length_singleton, nodeCount]
    omega

/-- The first parameter of a name has that name, also where the name comes again. -/
theorem rebuild_variable {name : String} (h : name ∈ parameters) (stack : List (Expr κ)) :
    Program.rebuild parameters stack (.parameter (parameters.idxOf name)) =
      some (.variable name :: stack) := by
  rw [Program.rebuild, List.getElem?_idxOf h, Option.map_some]

/-- The postfix form puts the expression on top of whatever is on the stack. -/
theorem foldlM_rebuild_code (h : ∀ name ∈ e.names, name ∈ parameters) (stack : List (Expr κ)) :
    (e.code parameters).foldlM (Program.rebuild parameters) stack = some (e :: stack) := by
  induction e generalizing stack with
  | constant value => rfl
  | «variable» name =>
    rw [code, List.foldlM_cons, rebuild_variable (h name (List.mem_singleton_self name))]
    rfl
  | binary op l r ihl ihr =>
    have hl := ihl (fun name hname => h name (List.mem_append_left _ hname)) stack
    have hr := ihr (fun name hname => h name (List.mem_append_right _ hname)) (l :: stack)
    rw [code, List.foldlM_append, List.foldlM_append, hl, Option.bind_eq_bind, Option.bind_some, hr]
    rfl

theorem compile_parameters (h : e.compile parameters = .ok p) : p.parameters = parameters := by
  obtain ⟨s, -, h⟩ := bind_eq_ok.mp h
  rw [← Except.ok.inj h]

theorem replay_of_compile (h : e.compile parameters = .ok p) : p.replay = some [e] := by
  rw [Program.replay, compile_parameters h, compile_instructions h]
  exact foldlM_rebuild_code (compile_isOk_iff.mp ⟨p, h⟩) []

/-- Two expressions that compile over the same parameters have the same instructions exactly if they
are the same, in each of their constants too, of whatever type these are. The instructions, carried
out on expressions, leave the expression and nothing else, and there are as many of them as it has
nodes. Constants may be replaced before compilation as well as behind it. -/
theorem compile_lossless (h : e.compile parameters = .ok p) (h' : e'.compile parameters = .ok p') :
    (p.instructions = p'.instructions ↔ e = e') ∧ p.replay = some [e] ∧
      p.instructions.length = e.nodeCount ∧
      ∀ {γ : Type} (f : κ → γ), (e.map f).compile parameters = .ok (p.map f) := by
  refine ⟨⟨fun hsame => ?_, ?_⟩, replay_of_compile h, ?_, fun f => ?_⟩
  · have hreplay : p.replay = p'.replay := by
      rw [Program.replay, Program.replay, hsame, compile_parameters h, compile_parameters h']
    rw [replay_of_compile h, replay_of_compile h'] at hreplay
    exact List.head_eq_of_cons_eq (Option.some.inj hreplay)
  · rintro rfl
    rw [compile_instructions h, compile_instructions h']
  · rw [compile_instructions h, code_length]
  · rw [compile_map, h]
    rfl

/-- Words for constants, over parameters that name `x` twice: two that both stand for no number when
they are read as doubles are told apart. -/
theorem compile_lossless_words :
    let difference : Expr UInt64 := .binary .sub (.variable "x") (.constant 0x7FF8000000000001)
    let other : Expr UInt64 := .binary .sub (.variable "x") (.constant 0xFFF8000000000002)
    let program : Program UInt64 :=
      ⟨[.parameter 1, .constant 0x7FF8000000000001, .apply .sub], ["y", "x", "x"], 2⟩
    let different : Program UInt64 :=
      ⟨[.parameter 1, .constant 0xFFF8000000000002, .apply .sub], ["y", "x", "x"], 2⟩
    difference.compile ["y", "x", "x"] = .ok program ∧
      other.compile ["y", "x", "x"] = .ok different ∧
      (program.instructions = different.instructions ↔ difference = other) ∧
      program.replay = some [difference] ∧ program.instructions.length = difference.nodeCount ∧
      (difference.map Float.ofBits).compile ["y", "x", "x"] =
        .ok ⟨[.parameter 1, .constant (0.0 / 0.0), .apply .sub], ["y", "x", "x"], 2⟩ := by
  intro difference other program different
  have hprogram : difference.compile ["y", "x", "x"] = .ok program := by decide
  have hdifferent : other.compile ["y", "x", "x"] = .ok different := by decide
  obtain ⟨hsame, hreplay, hlength, hmap⟩ := compile_lossless hprogram hdifferent
  have hnan : Float.ofBits 0x7FF8000000000001 = 0.0 / 0.0 := by decide +kernel
  refine ⟨hprogram, hdifferent, hsame, hreplay, hlength, (hmap Float.ofBits).trans ?_⟩
  simp [program, Program.map, Instruction.map, hnan]

end Expr
end Fluxion
