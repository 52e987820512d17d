import Fluxion.Proofs.Expr.Reparse

/-! Parsing, rendering and parsing again. Only a literal too large for a double is not the same the
second time. -/
namespace Fluxion

namespace Phrase

/-- The names of a syntax tree stand at leaves that are no numbers. -/
theorem exists_leaf_of_name {p : Phrase} {name : String} (h : name ∈ p.expr.names) :
    ∃ t ∈ p.leaves, t.kind ≠ .number ∧ t.text = name := by
  induction p with
  | leaf t =>
    by_cases hk : t.kind = .number
    · simp [expr, leafExpr, hk, Expr.names] at h
    · obtain rfl : name = t.text := by simpa [expr, leafExpr, hk, Expr.names] using h
      exact ⟨t, by simp [leaves], hk, rfl⟩
  | node op sign l r ihl ihr =>
    rcases List.mem_append.mp h with h | h
    · obtain ⟨t, ht, hname⟩ := ihl h
      exact ⟨t, List.mem_append_left _ ht, hname⟩
    · obtain ⟨t, ht, hname⟩ := ihr h
      exact ⟨t, List.mem_append_right _ ht, hname⟩

/-- The constants of a syntax tree are the values of its numbers. -/
theorem exists_leaf_of_constant {p : Phrase} (hn : p.WellNumbered) {x : Float}
    (h : x ∈ p.expr.constants) :
    ∃ t ∈ p.leaves, t.kind = .number ∧ literalValue? t.text.toList = some x := by
  induction p with
  | leaf t =>
    by_cases hk : t.kind = .number
    · obtain ⟨value, hvalue⟩ := Option.isSome_iff_exists.mp (hn t (by simp [leaves]) hk)
      obtain rfl : x = value := by simpa [expr, leafExpr, hk, Expr.constants, hvalue] using h
      exact ⟨t, by simp [leaves], hk, hvalue⟩
    · simp [expr, leafExpr, hk, Expr.constants] at h
  | node op sign l r ihl ihr =>
    obtain ⟨hl, hr⟩ := wellNumbered_node.mp hn
    rcases List.mem_append.mp h with h | h
    · obtain ⟨t, ht, hvalue⟩ := ihl hl h
      exact ⟨t, List.mem_append_left _ ht, hvalue⟩
    · obtain ⟨t, ht, hvalue⟩ := ihr hr h
      exact ⟨t, List.mem_append_right _ ht, hvalue⟩

end Phrase

section
variable {limit : Nat} {input : String} {e : Expr}

theorem depth_le_of_parseWithin (h : Expr.parseWithin limit input = .ok e) : e.depth ≤ limit := by
  obtain ⟨_, _, phrase, -, -, -, -, -, hdepth, rfl⟩ := parseWithin_eq_ok_iff_derived.mp h
  exact hdepth

theorem wellNamed_of_parseWithin (h : Expr.parseWithin limit input = .ok e) : e.WellNamed := by
  obtain ⟨body, _, phrase, -, -, hbody, hp, -, -, rfl⟩ := parseWithin_eq_ok_iff_derived.mp h
  intro name hname
  obtain ⟨t, ht, hnumber, rfl⟩ := Phrase.exists_leaf_of_name hname
  rw [hp.leaves_eq] at ht
  obtain ⟨hmem, hkind⟩ := List.mem_filter.mp ht
  have hname : t.kind = .name := by simpa [hnumber] using hkind
  exact (hbody t (List.mem_filter.mp hmem).1).2 hname

/-- Parsed constants are the values of number tokens. -/
theorem exists_token_of_constant (h : Expr.parseWithin limit input = .ok e) {x : Float}
    (hx : x ∈ e.constants) :
    ∃ tokens, tokenize input = .ok tokens ∧
      ∃ t ∈ tokens, t.kind = .number ∧ literalValue? t.text.toList = some x := by
  obtain ⟨body, last, phrase, htokens, -, -, hp, hn, -, rfl⟩ := parseWithin_eq_ok_iff_derived.mp h
  obtain ⟨t, ht, hnumber, hvalue⟩ := Phrase.exists_leaf_of_constant hn hx
  rw [hp.leaves_eq] at ht
  have hbody : t ∈ body := (List.mem_filter.mp (List.mem_filter.mp ht).1).1
  exact ⟨_, htokens, t, List.mem_append_left _ hbody, hnumber, hvalue⟩

/-- Parsed constants are literals, so they have no sign and are numbers or infinite. -/
theorem constants_of_parseWithin (h : Expr.parseWithin limit input = .ok e) :
    ∀ x ∈ e.constants, ¬ hasSign x ∧ doubleCode x ≤ BinaryFormat.double.infinityCode := by
  intro x hx
  obtain ⟨_, -, t, -, -, hvalue⟩ := exists_token_of_constant h hx
  exact literalValue?_nonnegative hvalue

end

/-- Of the doubles without a sign that are numbers or infinite, only infinity changes when it is
read back. -/
theorem rereadConstant_agrees_iff {x : Float} (hsign : ¬ hasSign x)
    (hcode : doubleCode x ≤ BinaryFormat.double.infinityCode) :
    ((rereadConstant x).agrees (.constant x) = true ↔ x.isInf = false) ∧
      (x.isInf = false → rereadConstant x = .constant x) := by
  have hnan : ¬ x.isNaN = true := by
    rw [isNaN_iff]
    omega
  cases hinf : x.isInf with
  | true =>
    rw [rereadConstant, if_neg hnan, if_pos hinf]
    simp [Expr.agrees]
  | false =>
    have hfinite : doubleCode x < BinaryFormat.double.infinityCode := by
      have hne : ¬ doubleCode x = BinaryFormat.double.infinityCode := by simp [← isInf_iff, hinf]
      omega
    have hlt : ¬ x < 0.0 := fun hx => hsign (lt_zero_iff.mp hx).1
    have hsame : rereadConstant x = .constant x := by
      rw [rereadConstant_finite hlt hfinite, ← eq_ofCode hsign hcode]
    simpa [hsame, Expr.agrees] using beq_self_iff.mpr hcode

/-- A tree whose constants have no sign and are numbers or infinite is the same when it is read
back, exactly if none is infinite. -/
theorem Expr.reread_agrees_iff {e : Expr}
    (h : ∀ x ∈ e.constants, ¬ hasSign x ∧ doubleCode x ≤ BinaryFormat.double.infinityCode) :
    (e.reread.agrees e = true ↔ ∀ x ∈ e.constants, x.isInf = false) ∧
      ((∀ x ∈ e.constants, x.isInf = false) → e.reread = e) := by
  induction e with
  | constant value =>
    obtain ⟨hsign, hcode⟩ := h value (by simp [constants])
    simpa [constants, reread] using rereadConstant_agrees_iff hsign hcode
  | «variable» name => simp [constants, reread, agrees]
  | binary op l r ihl ihr =>
    obtain ⟨hlagrees, hlsame⟩ := ihl fun x hx => h x (List.mem_append_left _ hx)
    obtain ⟨hragrees, hrsame⟩ := ihr fun x hx => h x (List.mem_append_right _ hx)
    have hconstants : (∀ x ∈ (binary op l r).constants, x.isInf = false) ↔
        (∀ x ∈ l.constants, x.isInf = false) ∧ ∀ x ∈ r.constants, x.isInf = false := by
      simp only [constants, List.mem_append, or_imp, forall_and]
    rw [hconstants]
    constructor
    · simp [reread, agrees, hlagrees, hragrees]
    · rintro ⟨hl, hr⟩
      rw [reread, hlsame hl, hrsame hr]

/-- What was parsed is rendered as a text that is parsed again within the same limit. The
expression is the same exactly if no literal was too large for a double. -/
theorem parseWithin_render_agrees_iff {limit : Nat} {input : String} {e : Expr}
    (h : Expr.parseWithin limit input = .ok e) :
    ∃ e', Expr.parseWithin limit e.render = .ok e' ∧
      (e'.agrees e = true ↔ ∀ x ∈ e.constants, x.isInf = false) ∧
      ((∀ x ∈ e.constants, x.isInf = false) → e' = e) := by
  have hconstants := constants_of_parseWithin h
  have hnonnegative : ∀ x ∈ e.constants, ¬ x < 0.0 :=
    fun x hx hlt => (hconstants x hx).1 (lt_zero_iff.mp hlt).1
  obtain ⟨hagrees, hsame⟩ := Expr.reread_agrees_iff hconstants
  exact ⟨e.reread, parseWithin_of_render (wellNamed_of_parseWithin h) hnonnegative
    (depth_le_of_parseWithin h), hagrees, hsame⟩

/-- A sum of a fraction and a name comes back as it was. -/
theorem parseWithin_render_sum :
    Expr.parseWithin 2 "2.5+x" = .ok (.add (.constant 2.5) (.variable "x")) ∧
      Expr.parseWithin 2 (Expr.add (.constant 2.5) (.variable "x")).render =
        .ok (.add (.constant 2.5) (.variable "x")) := by
  have hparse : Expr.parseWithin 2 "2.5+x" = .ok (.add (.constant 2.5) (.variable "x")) := by
    decide +kernel
  have hfinite : ∀ x ∈ (Expr.add (.constant 2.5) (.variable "x")).constants, x.isInf = false := by
    intro x hx
    obtain rfl : x = 2.5 := by simpa [Expr.add, Expr.constants] using hx
    decide
  obtain ⟨e', hagain, -, hsame⟩ := parseWithin_render_agrees_iff hparse
  rw [hsame hfinite] at hagain
  exact ⟨hparse, hagain⟩

/-- The literal of `10 ^ 309` is parsed as infinity, which is rendered as a word and comes back as a
name. -/
theorem parseWithin_render_overflow :
    Expr.parseWithin 1 (String.ofList ('1' :: List.replicate 309 '0')) =
        .ok (.constant (1.0 / 0.0)) ∧
      Expr.parseWithin 1 (Expr.constant (1.0 / 0.0)).render = .ok (.variable "Infinity") ∧
      (Expr.variable "Infinity").agrees (.constant (1.0 / 0.0)) = false := by
  have hform : isNumberText ('1' :: List.replicate 309 '0') = true := by decide +kernel
  have hvalue : literalValue? ('1' :: List.replicate 309 '0') = some (1.0 / 0.0) := by
    decide +kernel
  have hspells : Spells .atom (.constant (1.0 / 0.0))
      (String.ofList ('1' :: List.replicate 309 '0')).toList [] 0 := by
    rw [String.toList_ofList]
    exact Spells.number hform hvalue delimits_nil
  exact ⟨parseWithin_of_spells hspells (by decide), by decide +kernel, rfl⟩

end Fluxion
