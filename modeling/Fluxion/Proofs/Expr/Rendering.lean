import Fluxion.Proofs.Number.ConstantText
import Fluxion.Proofs.Parser.Settling
import Fluxion.Proofs.Token.Spelling

/-! Rendered expressions are in the grammar, each with the expression that it reads back as. -/
namespace Fluxion

/-- What the text of a constant reads back as. Infinity and what is no number become names, and a
zero loses its sign. -/
def rereadConstant (x : Float) : Expr :=
  if x.isNaN then .variable "NaN"
  else if x.isInf then .variable "Infinity"
  else if x == 0.0 then .constant 0.0
  else .constant x

/-- A finite constant reads back as the double of its code. -/
theorem rereadConstant_finite {x : Float} (h : ¬ x < 0.0)
    (hfinite : doubleCode x < BinaryFormat.double.infinityCode) :
    rereadConstant x = .constant (Float.ofBits (UInt64.ofNat (doubleCode x))) := by
  have hnan : ¬ x.isNaN = true := by
    rw [isNaN_iff]
    omega
  have hinf : ¬ x.isInf = true := by
    rw [isInf_iff]
    omega
  rw [rereadConstant, if_neg hnan, if_neg hinf]
  rcases Nat.eq_zero_or_pos (doubleCode x) with hzero | hpos
  · rw [if_pos (beq_zero_iff.mpr hzero), hzero]
    rfl
  · have hsign : ¬ hasSign x := fun hs => h (lt_zero_iff.mpr ⟨hs, hpos, Nat.le_of_lt hfinite⟩)
    have hnonzero : ¬ (x == 0.0) = true := by
      rw [beq_zero_iff]
      omega
    rw [if_neg hnonzero, ← eq_ofCode hsign (Nat.le_of_lt hfinite)]

namespace Expr

def constants : Expr → List Float
  | .constant value => [value]
  | .variable _ => []
  | .binary _ left right => left.constants ++ right.constants

def reread : Expr → Expr
  | .constant value => rereadConstant value
  | .variable name => .variable name
  | .binary op left right => .binary op left.reread right.reread

def renderStratum (e : Expr) : Stratum := if e.isPower then .power else .atom

def WellNamed (e : Expr) : Prop := ∀ name ∈ e.names, isNameText name.toList = true

theorem rereadConstant_depth (x : Float) : (rereadConstant x).depth = 1 := by
  unfold rereadConstant
  split
  · rfl
  · split
    · rfl
    · split <;> rfl

theorem reread_depth (e : Expr) : e.reread.depth = e.depth := by
  induction e with
  | constant value => exact rereadConstant_depth value
  | «variable» name => rfl
  | binary op l r ihl ihr => rw [reread, depth, depth, ihl, ihr]

theorem wellNamed_binary {op : Operator} {l r : Expr} :
    (binary op l r).WellNamed ↔ l.WellNamed ∧ r.WellNamed := by
  simp only [WellNamed, names, List.mem_append, or_imp, forall_and]

end Expr

/-- The text is read as a phrase of the stratum, which stands for the expression. -/
def Spells (σ : Stratum) (e : Expr) (text rest : List Char) (position : Nat) : Prop :=
  ∃ (ts : List Token) (p : Phrase),
    Passes (text ++ rest) position ts rest (position + byteLength text) ∧
      Derives σ ts p ∧ p.WellNumbered ∧ p.expr = e

namespace Spells
variable {σ τ : Stratum} {a b : Expr} {text left right rest : List Char} {position : Nat}

theorem loosen (hle : σ.level ≤ τ.level) (h : Spells τ a text rest position) :
    Spells σ a text rest position := by
  obtain ⟨ts, p, hpasses, hp, hn, he⟩ := h
  exact ⟨ts, p, hpasses, hp.loosen hle, hn, he⟩

theorem name (h : isNameText text = true) (hrest : Delimits rest) :
    Spells .atom (.variable (String.ofList text)) text rest position := by
  refine ⟨_, _, Passes.name h hrest position, .name rfl, ?_, rfl⟩
  intro t ht hnumber
  obtain rfl := List.mem_singleton.mp ht
  cases hnumber

theorem number {x : Float} (h : isNumberText text = true) (hvalue : literalValue? text = some x)
    (hrest : Delimits rest) : Spells .atom (.constant x) text rest position := by
  refine ⟨_, _, Passes.number h hrest position, .number rfl, ?_, ?_⟩
  · intro t ht _
    obtain rfl := List.mem_singleton.mp ht
    simp [hvalue]
  · simp [Phrase.expr, Phrase.leafExpr, hvalue]

/-- Decimals in positional notation are spelled as the values that they round to. -/
theorem decimal (d : Decimal) (hrest : Delimits rest) :
    Spells .atom (.constant (d.toDouble false)) d.text.toList rest position := by
  obtain ⟨d', -, -, hform⟩ := d.ofPlain?_text
  exact number hform (literalValue?_text d) hrest

/-- Parentheses make an atom of any phrase, whatever follows. -/
theorem group (h : Spells .sum a text (')' :: rest) (position + 1)) :
    Spells .atom a ('(' :: text ++ [')']) rest position := by
  obtain ⟨ts, p, hpasses, hp, hn, he⟩ := h
  have hchain := ((Passes.openParen _ _).trans hpasses).trans (Passes.closeParen rest _)
  have hsize : position + byteLength ('(' :: text ++ [')']) =
      position + 1 + byteLength text + 1 := by
    rw [byteLength_append, byteLength_cons, ← Nat.add_assoc, ← Nat.add_assoc]
    rfl
  have htext : '(' :: text ++ [')'] ++ rest = '(' :: (text ++ ')' :: rest) := by simp
  have hgroup : Derives .atom (⟨.openParen, "(", position⟩ :: ts ++
      [⟨.closeParen, ")", position + 1 + byteLength text⟩]) p := .group rfl rfl hp
  refine ⟨_, p, ?_, hgroup, hn, he⟩
  rw [hsize, htext]
  exact hchain

theorem spaced {op : Operator}
    (hl : Spells op.leftStratum a left (' ' :: (op.symbol.toList ++ ' ' :: (right ++ rest)))
      position)
    (hr : Spells op.rightStratum b right rest (position + byteLength left + 3)) :
    Spells op.stratum (.binary op a b) (left ++ ' ' :: (op.symbol.toList ++ ' ' :: right)) rest
      position := by
  obtain ⟨ls, l, hlpasses, hl, hln, hle⟩ := hl
  obtain ⟨rs, r, hrpasses, hr, hrn, hre⟩ := hr
  have hchain := hlpasses.trans ((Passes.operator op _ _).trans hrpasses)
  have hsize : position + byteLength (left ++ ' ' :: (op.symbol.toList ++ ' ' :: right)) =
      position + byteLength left + 3 + byteLength right := by
    have hspace : Char.utf8Size ' ' = 1 := rfl
    have hsymbol : byteLength op.symbol.toList = 1 := by cases op <;> rfl
    rw [byteLength_append, byteLength_cons, byteLength_append, byteLength_cons, hspace, hsymbol]
    omega
  have htext : left ++ ' ' :: (op.symbol.toList ++ ' ' :: right) ++ rest =
      left ++ ' ' :: (op.symbol.toList ++ ' ' :: (right ++ rest)) := by simp
  have hnode : Derives op.stratum
      (ls ++ ⟨.operator op, op.symbol, position + byteLength left + 1⟩ :: rs) (.node op _ l r) :=
    .node rfl hl hr
  refine ⟨_, _, ?_, hnode, Phrase.wellNumbered_node.mpr ⟨hln, hrn⟩, ?_⟩
  · rw [hsize, htext]
    exact hchain
  · rw [Phrase.expr, hle, hre]

theorem raised (hl : Spells .atom a left ('^' :: (right ++ rest)) position)
    (hr : Spells .power b right rest (position + byteLength left + 1)) :
    Spells .power (.binary .pow a b) (left ++ '^' :: right) rest position := by
  obtain ⟨ls, l, hlpasses, hl, hln, hle⟩ := hl
  obtain ⟨rs, r, hrpasses, hr, hrn, hre⟩ := hr
  have hchain := hlpasses.trans ((Passes.raise _ _).trans hrpasses)
  have hsize : position + byteLength (left ++ '^' :: right) =
      position + byteLength left + 1 + byteLength right := by
    rw [byteLength_append, byteLength_cons, ← Nat.add_assoc, ← Nat.add_assoc]
    rfl
  have htext : left ++ '^' :: right ++ rest = left ++ '^' :: (right ++ rest) := by simp
  have hnode : Derives .power (ls ++ ⟨.operator .pow, "^", position + byteLength left⟩ :: rs)
      (.node .pow _ l r) := .power rfl hl hr
  refine ⟨_, _, ?_, hnode, Phrase.wellNumbered_node.mpr ⟨hln, hrn⟩, ?_⟩
  · rw [hsize, htext]
    exact hchain
  · rw [Phrase.expr, hle, hre]

/-- A constant that is not less than zero is spelled as it reads back. -/
theorem constant {x : Float} (h : ¬ x < 0.0) (hrest : Delimits rest) :
    Spells .atom (rereadConstant x) (constantText x).toList rest position := by
  by_cases hnan : x.isNaN = true
  · rw [rereadConstant, if_pos hnan, constantText, if_pos hnan]
    exact name (by decide) hrest
  · by_cases hinf : x.isInf = true
    · have hcode := isInf_iff.mp hinf
      have hpositive : x > 0.0 := by
        rw [lt_zero_iff] at h
        rw [gt_iff_lt, zero_lt_iff, hcode]
        have hpos : 0 < BinaryFormat.double.infinityCode := by decide
        exact ⟨fun hs => h ⟨hs, by omega, by omega⟩, hpos, Nat.le_refl _⟩
      rw [rereadConstant, if_neg hnan, if_pos hinf, constantText, if_neg hnan, if_pos hinf,
        if_pos hpositive]
      exact name (by decide) hrest
    · have hfinite : doubleCode x < BinaryFormat.double.infinityCode := by
        rw [isNaN_iff] at hnan
        rw [isInf_iff] at hinf
        omega
      obtain ⟨d, hround, htext⟩ := constantText_finite hfinite
      have hvalue : rereadConstant x = .constant (d.toDouble false) := by
        rw [rereadConstant_finite h hfinite, Decimal.toDouble, hround]
        rfl
      rw [if_neg h, String.empty_append] at htext
      rw [hvalue, htext]
      exact decimal d hrest

end Spells

namespace Expr

theorem render_toList_binary {op : Operator} (hop : op ≠ .pow) (l r : Expr) :
    (binary op l r).render.toList =
      '(' :: (l.render.toList ++ ' ' :: (op.symbol.toList ++ ' ' :: r.render.toList)) ++ [')'] := by
  cases op
  case pow => exact absurd rfl hop
  all_goals simp [render, String.toList_append]

def baseText (base : Expr) : List Char :=
  if base.isPower then '(' :: base.render.toList ++ [')'] else base.render.toList

theorem render_toList_pow (base exponent : Expr) :
    (binary .pow base exponent).render.toList =
      base.baseText ++ '^' :: ('(' :: exponent.render.toList ++ [')']) := by
  unfold baseText
  rw [render]
  split <;> simp [String.toList_append]

/-- Any rendered expression may stand beside an operator that is no power. -/
theorem operand_strata_le {op : Operator} (hop : op ≠ .pow) (e : Expr) :
    op.leftStratum.level ≤ e.renderStratum.level ∧
      op.rightStratum.level ≤ e.renderStratum.level := by
  unfold renderStratum
  split
  · cases op
    case pow => exact absurd rfl hop
    all_goals decide
  · cases op
    case pow => exact absurd rfl hop
    all_goals decide

def SpelledAs (e a : Expr) : Prop :=
  ∀ (rest : List Char) (position : Nat), Delimits rest →
    Spells e.renderStratum a e.render.toList rest position

namespace SpelledAs
variable {e l r a b : Expr} {rest : List Char} {position : Nat}

theorem group (h : e.SpelledAs a) (rest : List Char) (position : Nat) :
    Spells .atom a ('(' :: e.render.toList ++ [')']) rest position := by
  have hclose : Delimits (')' :: rest) := delimits_cons (by decide) (by decide)
  have hle : Stratum.sum.level ≤ e.renderStratum.level := by
    unfold renderStratum
    split <;> decide
  exact ((h _ _ hclose).loosen hle).group

theorem baseText (h : e.SpelledAs a) (hrest : Delimits rest) :
    Spells .atom a e.baseText rest position := by
  unfold Expr.baseText
  split
  · exact h.group rest position
  · next hpower =>
    have hatom := h rest position hrest
    rwa [renderStratum, if_neg hpower] at hatom

theorem pow (hl : l.SpelledAs a) (hr : r.SpelledAs b) :
    (binary .pow l r).SpelledAs (.binary .pow a b) := by
  intro rest position _
  rw [render_toList_pow]
  have hraise : Delimits ('^' :: ('(' :: r.render.toList ++ [')'] ++ rest)) :=
    delimits_cons (by decide) (by decide)
  have hexponent := hr.group rest (position + byteLength l.baseText + 1)
  exact (hl.baseText hraise).raised (hexponent.loosen (by decide))

theorem spaced {op : Operator} (hop : op ≠ .pow) (hl : l.SpelledAs a) (hr : r.SpelledAs b) :
    (binary op l r).SpelledAs (.binary op a b) := by
  intro rest position _
  have hatom : (binary op l r).renderStratum = .atom := by
    cases op
    case pow => exact absurd rfl hop
    all_goals rfl
  have hblank (cs : List Char) : Delimits (' ' :: cs) := delimits_cons (by decide) (by decide)
  have hclose : Delimits (')' :: rest) := delimits_cons (by decide) (by decide)
  obtain ⟨hleft, -⟩ := operand_strata_le hop l
  obtain ⟨-, hright⟩ := operand_strata_le hop r
  have hspaced := Spells.spaced ((hl _ (position + 1) (hblank _)).loosen hleft)
    ((hr _ _ hclose).loosen hright)
  rw [render_toList_binary hop, hatom]
  exact (hspaced.loosen (by cases op <;> decide)).group

end SpelledAs

/-- A rendered expression without constants less than zero is spelled as it reads back. -/
theorem spelledAs_reread {e : Expr} (hnames : e.WellNamed)
    (hconstants : ∀ x ∈ e.constants, ¬ x < 0.0) : e.SpelledAs e.reread := by
  induction e with
  | constant value =>
    intro rest position hrest
    exact Spells.constant (hconstants value (by simp [constants])) hrest
  | «variable» name =>
    intro rest position hrest
    have h : Spells .atom (.variable (String.ofList name.toList)) name.toList rest position :=
      Spells.name (hnames name (by simp [names])) hrest
    rwa [String.ofList_toList] at h
  | binary op l r ihl ihr =>
    obtain ⟨hlnames, hrnames⟩ := wellNamed_binary.mp hnames
    have hl := ihl hlnames fun x hx => hconstants x (List.mem_append_left _ hx)
    have hr := ihr hrnames fun x hx => hconstants x (List.mem_append_right _ hx)
    by_cases hop : op = .pow
    · subst hop
      exact hl.pow hr
    · exact hl.spaced hop hr

end Expr
end Fluxion
