import Fluxion.Expr.Subtree
import Fluxion.Proofs.Derivative.Rules

/-! When an expression has no symbolic derivative: some power anywhere in it has an exponent that
contains the name, and the first such power in pre-order is reported. -/
namespace Fluxion.Expr

def preorder : Expr → List Expr
  | .binary op left right => .binary op left right :: (left.preorder ++ right.preorder)
  | leaf => [leaf]

/-- The pre-order lists the subtrees and nothing else. -/
theorem mem_preorder_iff {e node : Expr} :
    node ∈ e.preorder ↔ ∃ path, e.subtree? path = some node := by
  constructor
  · intro h
    induction e with
    | constant c => exact ⟨[], by simpa [preorder, subtree?, eq_comm] using h⟩
    | «variable» other => exact ⟨[], by simpa [preorder, subtree?, eq_comm] using h⟩
    | binary op l r ihl ihr =>
      rw [preorder, List.mem_cons, List.mem_append] at h
      rcases h with rfl | h | h
      · exact ⟨[], rfl⟩
      · obtain ⟨path, hpath⟩ := ihl h
        exact ⟨.left :: path, hpath⟩
      · obtain ⟨path, hpath⟩ := ihr h
        exact ⟨.right :: path, hpath⟩
  · rintro ⟨path, h⟩
    induction path generalizing e with
    | nil =>
      obtain rfl := Option.some.inj h
      cases e <;> simp [preorder]
    | cons side path ih =>
      cases e with
      | constant c => cases side <;> cases h
      | «variable» other => cases side <;> cases h
      | binary op l r =>
        rw [preorder, List.mem_cons, List.mem_append]
        cases side with
        | left => exact .inr (.inl (ih h))
        | right => exact .inr (.inr (ih h))

/-- The exponent of this very node, if the node is a power whose exponent contains the name. -/
def dependentExponent? (name : String) : Expr → Option Expr
  | .binary .pow _ exponent => if exponent.mentions name then some exponent else none
  | _ => none

theorem dependentExponent?_eq_some_iff {name : String} {node exponent : Expr} :
    node.dependentExponent? name = some exponent ↔
      (∃ base, node = .binary .pow base exponent) ∧ exponent.mentions name = true := by
  unfold dependentExponent?
  split
  · next base other =>
    rw [Option.ite_none_right_eq_some, Option.some.injEq]
    constructor
    · rintro ⟨hmentions, rfl⟩
      exact ⟨⟨base, rfl⟩, hmentions⟩
    · rintro ⟨⟨_, h⟩, hmentions⟩
      cases h
      exact ⟨hmentions, rfl⟩
  · next hpow =>
    simp only [reduceCtorEq, false_iff, not_and]
    rintro ⟨base, rfl⟩
    exact absurd rfl (hpow base exponent)

def firstDependent? (name : String) (e : Expr) : Option Expr :=
  e.preorder.findSome? (dependentExponent? name)

theorem firstDependent?_eq_some_iff {name : String} {e exponent : Expr} :
    e.firstDependent? name = some exponent ↔
      ∃ before base behind, e.preorder = before ++ .binary .pow base exponent :: behind ∧
        exponent.mentions name = true ∧
        ∀ earlier other, .binary .pow earlier other ∈ before → other.mentions name = false := by
  rw [firstDependent?, List.findSome?_eq_some_iff]
  constructor
  · rintro ⟨before, node, behind, hsplit, hnode, hbefore⟩
    obtain ⟨⟨base, rfl⟩, hmentions⟩ := dependentExponent?_eq_some_iff.mp hnode
    refine ⟨before, base, behind, hsplit, hmentions, fun earlier other hmem => ?_⟩
    simpa [dependentExponent?] using hbefore _ hmem
  · rintro ⟨before, base, behind, hsplit, hmentions, hbefore⟩
    refine ⟨before, _, behind, hsplit, dependentExponent?_eq_some_iff.mpr ⟨⟨base, rfl⟩, hmentions⟩,
      fun node hnode => ?_⟩
    rw [Option.eq_none_iff_forall_ne_some]
    intro other hother
    obtain ⟨⟨earlier, rfl⟩, hdependent⟩ := dependentExponent?_eq_some_iff.mp hother
    rw [hbefore earlier other hnode] at hdependent
    cases hdependent

theorem firstDependent?_isSome_iff {name : String} {e : Expr} :
    (e.firstDependent? name).isSome ↔
      ∃ path base exponent, e.subtree? path = some (.binary .pow base exponent) ∧
        exponent.mentions name = true := by
  rw [firstDependent?, List.findSome?_isSome_iff]
  constructor
  · rintro ⟨node, hmem, hnode⟩
    obtain ⟨exponent, hexponent⟩ := Option.isSome_iff_exists.mp hnode
    obtain ⟨⟨base, rfl⟩, hmentions⟩ := dependentExponent?_eq_some_iff.mp hexponent
    obtain ⟨path, hpath⟩ := mem_preorder_iff.mp hmem
    exact ⟨path, base, exponent, hpath, hmentions⟩
  · rintro ⟨path, base, exponent, hpath, hmentions⟩
    exact ⟨_, mem_preorder_iff.mpr ⟨path, hpath⟩, by simp [dependentExponent?, hmentions]⟩

theorem firstDependent?_binary (name : String) (op : Operator) (l r : Expr) :
    (binary op l r).firstDependent? name = ((binary op l r).dependentExponent? name).or
      ((l.firstDependent? name).or (r.firstDependent? name)) := by
  rw [firstDependent?, preorder, List.findSome?_cons, List.findSome?_append]
  cases (binary op l r).dependentExponent? name <;> rfl

section
variable {name : String}

theorem firstDependent?_binary_eq_none_iff {op : Operator} {l r : Expr} :
    (binary op l r).firstDependent? name = none ↔
      (op = .pow → r.mentions name = false) ∧ l.firstDependent? name = none ∧
        r.firstDependent? name = none := by
  rw [firstDependent?_binary, Option.or_eq_none_iff, Option.or_eq_none_iff]
  cases op <;> simp [dependentExponent?]

/-- Where the name does not occur, no exponent contains it. -/
theorem firstDependent?_of_not_mentions {e : Expr} (h : e.mentions name = false) :
    e.firstDependent? name = none := by
  induction e with
  | constant c => rfl
  | «variable» other => rfl
  | binary op l r ihl ihr =>
    obtain ⟨hl, hr⟩ := Bool.or_eq_false_iff.mp h
    exact firstDependent?_binary_eq_none_iff.mpr ⟨fun _ => hr, ihl hl, ihr hr⟩

/-- No rule but that for powers refuses anything itself; a fault of the left operand comes first. -/
theorem derivative_binary_eq_error_iff {op : Operator} {l r : Expr} (hop : op ≠ .pow)
    (hl : ∀ fault, l.derivative name = .error fault ↔
      (l.firstDependent? name).map (Diagnostic.dependentExponent · name) = some fault)
    (hr : ∀ fault, r.derivative name = .error fault ↔
      (r.firstDependent? name).map (Diagnostic.dependentExponent · name) = some fault)
    (fault : Diagnostic) :
    (binary op l r).derivative name = .error fault ↔
      ((binary op l r).firstDependent? name).map (Diagnostic.dependentExponent · name) =
        some fault := by
  have hroot : (binary op l r).dependentExponent? name = none := by
    cases op
    case pow => exact absurd rfl hop
    all_goals rfl
  obtain ⟨combine, hcombine⟩ : ∃ combine : Expr → Expr → Expr,
      (binary op l r).derivative name = l.derivative name >>= fun dl =>
        r.derivative name >>= fun dr => .ok (combine dl dr) := by
    cases op
    case pow => exact absurd rfl hop
    all_goals exact ⟨_, rfl⟩
  rw [hcombine, firstDependent?_binary, hroot, Option.none_or, Option.map_or]
  refine bind_eq_error_iff hl (fun dl _ => ?_) fault
  intro f
  rw [← hr]
  cases r.derivative name <;> simp

/-- A derivative is refused at the first exponent in pre-order that contains the name. A power
with another exponent is refused as its base is, and what the power rule does not look at holds no
such exponent. -/
theorem derivative_eq_error_iff {e : Expr} {fault : Diagnostic} :
    e.derivative name = .error fault ↔
      (e.firstDependent? name).map (Diagnostic.dependentExponent · name) = some fault := by
  induction e generalizing fault with
  | constant c => simp [derivative, firstDependent?, preorder, dependentExponent?]
  | «variable» other => simp [derivative, firstDependent?, preorder, dependentExponent?]
  | binary op l r ihl ihr =>
    by_cases hop : op = .pow
    · subst hop
      rw [derivative, firstDependent?_binary]
      split
      · next hexponent => simp [dependentExponent?, hexponent, eq_comm]
      · next hexponent =>
        have hfree : r.mentions name = false := by simpa using hexponent
        have hroot : (binary .pow l r).dependentExponent? name = none := by
          simp [dependentExponent?, hfree]
        rw [hroot, firstDependent?_of_not_mentions hfree, Option.none_or, Option.or_none]
        split
        · next hbase =>
          rw [firstDependent?_of_not_mentions (by simpa using hbase)]
          simp
        · split
          · next hname =>
            have hleaf : l.firstDependent? name = none := by
              cases l <;> simp_all [variableName?, firstDependent?, preorder, dependentExponent?]
            rw [hleaf]
            simp
          · rw [← ihl]
            cases l.derivative name <;> simp
    · exact derivative_binary_eq_error_iff hop (fun _ => ihl) (fun _ => ihr) fault

example : (pow (.variable "x") (pow (.variable "y") (.variable "x"))).derivative "x" =
    .error (.placeless (.unsupportedDerivative "exponent 'y^(x)' depends on 'x'")) := rfl

/-- An expression has a derivative exactly if no exponent in it contains the name. -/
theorem derivative_isOk_iff {e : Expr} :
    (∃ d, e.derivative name = .ok d) ↔ e.firstDependent? name = none := by
  rw [← Option.map_eq_none_iff (f := (Diagnostic.dependentExponent · name)),
    Option.eq_none_iff_forall_ne_some]
  simp only [ne_eq, ← derivative_eq_error_iff]
  cases e.derivative name <;> simp

/-- No rule puts a name into an exponent that did not contain it. -/
theorem firstDependent?_of_derivative {e d : Expr} {other : String}
    (he : e.firstDependent? other = none) (hd : e.derivative name = .ok d) :
    d.firstDependent? other = none := by
  refine derivative_preserves (P := fun e => e.firstDependent? other = none) rfl rfl ?_ ?_ he hd
  · intro op l r hop
    simp [firstDependent?_binary_eq_none_iff, hop]
  · intro base exponent h
    obtain ⟨hmentions, hbase, hexponent⟩ := firstDependent?_binary_eq_none_iff.mp h
    have hone : (constant 1.0).firstDependent? other = none := rfl
    refine ⟨hbase, ?_⟩
    simp [monomial, mul, pow, sub, firstDependent?_binary_eq_none_iff, mentions, hmentions rfl,
      hbase, hexponent, hone]

/-- An expression with derivatives for two names keeps that for the second when it is
differentiated for the first. -/
theorem exists_derivative_of_derivative {e dx dy : Expr} {x y : String}
    (hx : e.derivative x = .ok dx) (hy : e.derivative y = .ok dy) :
    ∃ dxy, dx.derivative y = .ok dxy :=
  derivative_isOk_iff.mpr (firstDependent?_of_derivative (derivative_isOk_iff.mp ⟨dy, hy⟩) hx)

end

/-- The derivative for a name is refused if and only if some power anywhere in the expression has
an exponent that contains the name. The refusal quotes the exponent of the first such power in
pre-order. -/
theorem derivative_refused_iff (name : String) (e : Expr) :
    ((∃ fault, e.derivative name = .error fault) ↔
      ∃ path base exponent, e.subtree? path = some (.binary .pow base exponent) ∧
        exponent.mentions name = true) ∧
    ∀ fault, e.derivative name = .error fault ↔
      ∃ before base exponent behind,
        e.preorder = before ++ .binary .pow base exponent :: behind ∧
        exponent.mentions name = true ∧
        (∀ earlier other, .binary .pow earlier other ∈ before → other.mentions name = false) ∧
        fault = .placeless (.unsupportedDerivative
          ("exponent '" ++ exponent.render ++ "' depends on '" ++ name ++ "'")) := by
  have hfault (fault : Diagnostic) : e.derivative name = .error fault ↔
      ∃ exponent, e.firstDependent? name = some exponent ∧
        Diagnostic.dependentExponent exponent name = fault := by
    rw [derivative_eq_error_iff, Option.map_eq_some_iff]
  constructor
  · rw [← firstDependent?_isSome_iff, Option.isSome_iff_exists]
    constructor
    · rintro ⟨fault, h⟩
      obtain ⟨exponent, hfirst, -⟩ := (hfault fault).mp h
      exact ⟨exponent, hfirst⟩
    · rintro ⟨exponent, hfirst⟩
      exact ⟨_, (hfault _).mpr ⟨exponent, hfirst, rfl⟩⟩
  · intro fault
    rw [hfault]
    constructor
    · rintro ⟨exponent, hfirst, rfl⟩
      obtain ⟨before, base, behind, hsplit, hmentions, hbefore⟩ :=
        firstDependent?_eq_some_iff.mp hfirst
      exact ⟨before, base, exponent, behind, hsplit, hmentions, hbefore, rfl⟩
    · rintro ⟨before, base, exponent, behind, hsplit, hmentions, hbefore, rfl⟩
      exact ⟨exponent, firstDependent?_eq_some_iff.mpr ⟨before, base, behind, hsplit, hmentions,
        hbefore⟩, rfl⟩

end Fluxion.Expr
