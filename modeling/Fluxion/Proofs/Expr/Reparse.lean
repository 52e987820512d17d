import Fluxion.Proofs.Expr.Rendering
import Fluxion.Proofs.Parser.Exactness

/-! What parsing makes of a rendered expression: the tree as it reads back, or a refusal of the
minus of the first constant less than zero. -/
namespace Fluxion
open Fluxion.Parser

/-- A text that spells an expression is parsed as it, if the expression is within the limit. -/
theorem parseWithin_of_spells {limit : Nat} {σ : Stratum} {e : Expr} {input : String}
    (h : Spells σ e input.toList [] 0) (hdepth : e.depth ≤ limit) :
    Expr.parseWithin limit input = .ok e := by
  obtain ⟨ts, p, hpasses, hp, hn, rfl⟩ := h
  have hsum : Derives .sum ts p := hp.loosen (by cases σ <;> decide)
  rw [Passes, List.append_nil, streamFrom_nil] at hpasses
  rw [Expr.parseWithin, tokenStream_eq, hpasses, consume_append hp.kind_ne_finish]
  simp only [consume_finish]
  exact hsum.complete_eq_ok_iff.mpr ⟨hn, hdepth, rfl⟩

/-- A rendered expression without constants less than zero is parsed as it reads back. -/
theorem parseWithin_of_render {limit : Nat} {e : Expr} (hnames : e.WellNamed)
    (hconstants : ∀ x ∈ e.constants, ¬ x < 0.0) (hdepth : e.depth ≤ limit) :
    Expr.parseWithin limit e.render = .ok e.reread :=
  parseWithin_of_spells (e.spelledAs_reread hnames hconstants [] 0 delimits_nil)
    (by rwa [e.reread_depth])

def Stratum.LeavesDue (σ : Stratum) (limit : Nat) (ts : List Token) : Prop :=
  ∀ (waiting : List Waiting) (operands : List Operand), σ.MayStart waiting →
    ∃ s, run limit ⟨waiting, operands, true⟩ ts = .ok s ∧ s.operandDue = true

namespace Stratum.LeavesDue
variable {limit : Nat} {σ τ : Stratum} {ts ls rs : List Token} {l : Phrase}

theorem nil : σ.LeavesDue limit [] :=
  fun waiting operands _ => ⟨⟨waiting, operands, true⟩, rfl, rfl⟩

theorem mono (hle : σ.level ≤ τ.level) (h : τ.LeavesDue limit ts) : σ.LeavesDue limit ts :=
  fun waiting operands hw => h waiting operands (hw.mono hle)

theorem group {o : Token} (ho : o.kind = .openParen) (h : τ.LeavesDue limit ts) :
    σ.LeavesDue limit (o :: ts) := by
  intro waiting operands _
  have hstart : τ.MayStart (.openParen o.position :: waiting) := trivial
  obtain ⟨s, hrun, hdue⟩ := h _ operands hstart
  exact ⟨s, by rw [run_cons, step_openParen ho, ok_bind, hrun], hdue⟩

/-- A left operand that settles is left behind, and the sign makes the right one due. -/
theorem node {op : Operator} {sign : Token} (hs : sign.kind = .operator op)
    (hl : Derives op.leftStratum ls l) (hn : l.WellNumbered) (hd : l.expr.depth ≤ limit)
    (hr : op.rightStratum.LeavesDue limit rs) : op.stratum.LeavesDue limit (ls ++ sign :: rs) := by
  intro waiting operands hw
  have hop : op.stratum.level ≤ op.precedence := Nat.le_of_eq op.stratum_level
  have hsettled : l.settle limit operands = .ok (⟨l.expr, l.expr.depth⟩ :: operands) :=
    Phrase.settle_eq_ok_iff.mpr ⟨hn, hd, rfl⟩
  have hcombines := combines_operator limit hs (fun _ => Operator.bindsBefore_left)
    fun s => run limit s rs
  have hleft := hl.settles (hw.mono op.stratum_le_leftStratum) hcombines operands
  obtain ⟨s, hrun, hdue⟩ := hr (.operator op sign.position :: waiting)
    (⟨l.expr, l.expr.depth⟩ :: operands)
    (mayStart_operator (fun _ => Operator.bindsBefore_right) sign.position waiting)
  refine ⟨s, ?_, hdue⟩
  rw [hsettled, ok_bind, step_operator hs, reduceBefore_of_mayStart hw hop, ok_bind, ok_bind, hrun]
    at hleft
  rw [run_append]
  exact hleft

end Stratum.LeavesDue

inductive Piece where
  | constant (value : Float)
  | text (content : String)

def Piece.chars : Piece → List Char
  | .constant value => (constantText value).toList
  | .text content => content.toList

def piecesLength (pieces : List Piece) : Nat := byteLength (pieces.flatMap Piece.chars)

theorem piecesLength_append (ps qs : List Piece) :
    piecesLength (ps ++ qs) = piecesLength ps + piecesLength qs := by
  rw [piecesLength, List.flatMap_append, byteLength_append]
  rfl

namespace Expr

def pieces : Expr → List Piece
  | .constant value => [.constant value]
  | .variable name => [.text name]
  | .binary .pow base exponent =>
    (if base.isPower then .text "(" :: base.pieces ++ [.text ")"] else base.pieces) ++
      .text "^" :: .text "(" :: exponent.pieces ++ [.text ")"]
  | .binary op left right =>
    .text "(" :: left.pieces ++ .text (" " ++ op.symbol ++ " ") :: right.pieces ++ [.text ")"]

theorem render_eq_pieces (e : Expr) : e.render.toList = e.pieces.flatMap Piece.chars := by
  induction e with
  | constant value => simp [render, pieces, Piece.chars]
  | «variable» name => simp [render, pieces, Piece.chars]
  | binary op l r ihl ihr =>
    cases op
    case pow =>
      unfold render pieces
      split <;> simp [ihl, ihr, Piece.chars, String.toList_append]
    all_goals simp [render, pieces, ihl, ihr, Piece.chars, String.toList_append]

theorem pieces_binary {op : Operator} (hop : op ≠ .pow) (l r : Expr) :
    (binary op l r).pieces =
      .text "(" :: (l.pieces ++ .text (" " ++ op.symbol ++ " ") :: r.pieces) ++ [.text ")"] := by
  cases op
  case pow => exact absurd rfl hop
  all_goals simp [pieces]

def basePieces (base : Expr) : List Piece :=
  if base.isPower then .text "(" :: base.pieces ++ [.text ")"] else base.pieces

theorem pieces_pow (base exponent : Expr) :
    (binary .pow base exponent).pieces =
      base.basePieces ++ .text "^" :: (.text "(" :: exponent.pieces ++ [.text ")"]) := by
  simp [pieces, basePieces]

theorem mem_pieces {e : Expr} {x : Float} : .constant x ∈ e.pieces ↔ x ∈ e.constants := by
  induction e with
  | constant value => simp [pieces, constants]
  | «variable» name => simp [pieces, constants]
  | binary op l r ihl ihr =>
    cases op
    case pow =>
      unfold pieces constants
      split <;> simp [ihl, ihr]
    all_goals simp [pieces, constants, ihl, ihr]

end Expr

/-- The first constant less than zero among the stretches is reached at its minus, where an operand
is due. -/
def StopsAtMinus (limit : Nat) (σ : Stratum) (pieces : List Piece) (text : List Char) : Prop :=
  ∃ before x after, pieces = before ++ .constant x :: after ∧
    (∀ y, .constant y ∈ before → ¬ y < 0.0) ∧ x < 0.0 ∧
    ∀ (rest : List Char) (position : Nat), ∃ (ts : List Token) (tail : List Char),
      Passes (text ++ rest) position ts ('-' :: tail) (position + piecesLength before) ∧
        (∀ t ∈ ts, t.kind ≠ .finish) ∧ σ.LeavesDue limit ts

namespace StopsAtMinus
variable {limit : Nat} {σ τ : Stratum} {lead pieces : List Piece} {leadText text : List Char}

/-- What is read before and what follows do not matter, if the former leads to where the stratum
of the rest may start. -/
theorem within (h : StopsAtMinus limit τ pieces text)
    (hlead : ∀ y, .constant y ∈ lead → ¬ y < 0.0)
    (hpasses : ∀ (rest : List Char) (position : Nat), ∃ us,
      Passes (leadText ++ (text ++ rest)) position us (text ++ rest)
          (position + piecesLength lead) ∧
        (∀ t ∈ us, t.kind ≠ .finish) ∧
        ∀ ts, τ.LeavesDue limit ts → σ.LeavesDue limit (us ++ ts))
    (trail : List Piece) (trailText : List Char) :
    StopsAtMinus limit σ (lead ++ pieces ++ trail) (leadText ++ text ++ trailText) := by
  obtain ⟨before, x, after, rfl, hbefore, hx, htext⟩ := h
  refine ⟨lead ++ before, x, after ++ trail, by simp, ?_, hx, ?_⟩
  · intro y hy
    rcases List.mem_append.mp hy with hy | hy
    · exact hlead y hy
    · exact hbefore y hy
  · intro rest position
    obtain ⟨us, hus, husKind, hdue⟩ := hpasses (trailText ++ rest) position
    obtain ⟨ts, tail, hts, htsKind, htsDue⟩ :=
      htext (trailText ++ rest) (position + piecesLength lead)
    have hlength : position + piecesLength (lead ++ before) =
        position + piecesLength lead + piecesLength before := by
      rw [piecesLength_append, ← Nat.add_assoc]
    refine ⟨us ++ ts, tail, ?_, ?_, hdue ts htsDue⟩
    · rw [hlength, List.append_assoc, List.append_assoc]
      exact hus.trans hts
    · intro t ht
      rcases List.mem_append.mp ht with ht | ht
      · exact husKind t ht
      · exact htsKind t ht

theorem append (h : StopsAtMinus limit τ pieces text) (hle : σ.level ≤ τ.level)
    (trail : List Piece) (trailText : List Char) :
    StopsAtMinus limit σ (pieces ++ trail) (text ++ trailText) := by
  have hnone : ∀ y, Piece.constant y ∈ [] → ¬ y < 0.0 := by simp
  have hpasses (rest : List Char) (position : Nat) : ∃ us,
      Passes ([] ++ (text ++ rest)) position us (text ++ rest) (position + piecesLength []) ∧
        (∀ t ∈ us, t.kind ≠ .finish) ∧
        ∀ ts, τ.LeavesDue limit ts → σ.LeavesDue limit (us ++ ts) :=
    ⟨[], rfl, by simp, fun _ hts => hts.mono hle⟩
  exact h.within hnone hpasses trail trailText

theorem group (h : StopsAtMinus limit τ pieces text) (trail : List Piece) (trailText : List Char) :
    StopsAtMinus limit σ (.text "(" :: pieces ++ trail) ('(' :: text ++ trailText) := by
  have hnone : ∀ y, Piece.constant y ∈ [.text "("] → ¬ y < 0.0 := by simp
  have hpasses (rest : List Char) (position : Nat) : ∃ us,
      Passes (['('] ++ (text ++ rest)) position us (text ++ rest)
          (position + piecesLength [.text "("]) ∧
        (∀ t ∈ us, t.kind ≠ .finish) ∧
        ∀ ts, τ.LeavesDue limit ts → σ.LeavesDue limit (us ++ ts) :=
    ⟨_, Passes.openParen _ _, by simp, fun _ hts => hts.group rfl⟩
  exact h.within hnone hpasses trail trailText

/-- A left operand without constants less than zero leads to the right one. -/
theorem beside {op : Operator} {a : Expr} {content : String} (hd : a.depth ≤ limit)
    (hlead : ∀ y, .constant y ∈ lead → ¬ y < 0.0)
    (hlength : piecesLength lead = byteLength leadText)
    (hspells : ∀ rest position,
      Spells op.leftStratum a leadText (content.toList ++ rest) position)
    (hsign : ∀ rest position, ∃ sign : Token, sign.kind = .operator op ∧
      Passes (content.toList ++ rest) position [sign] rest (position + byteLength content.toList))
    (h : StopsAtMinus limit op.rightStratum pieces text) :
    StopsAtMinus limit op.stratum (lead ++ .text content :: pieces)
      (leadText ++ content.toList ++ text) := by
  have hnone : ∀ y, Piece.constant y ∈ lead ++ [.text content] → ¬ y < 0.0 := by
    intro y hy
    exact hlead y (by simpa using hy)
  have hcontent : piecesLength [.text content] = byteLength content.toList := by
    simp [piecesLength, Piece.chars]
  have hpasses (rest : List Char) (position : Nat) : ∃ us,
      Passes (leadText ++ content.toList ++ (text ++ rest)) position us (text ++ rest)
          (position + piecesLength (lead ++ [.text content])) ∧
        (∀ t ∈ us, t.kind ≠ .finish) ∧
        ∀ ts, op.rightStratum.LeavesDue limit ts → op.stratum.LeavesDue limit (us ++ ts) := by
    obtain ⟨ls, l, hleft, hl, hln, rfl⟩ := hspells (text ++ rest) position
    obtain ⟨sign, hkind, hsign⟩ := hsign (text ++ rest) (position + byteLength leadText)
    refine ⟨ls ++ [sign], ?_, ?_, ?_⟩
    · rw [piecesLength_append, hlength, hcontent, ← Nat.add_assoc, List.append_assoc]
      exact hleft.trans hsign
    · intro t ht
      rcases List.mem_append.mp ht with ht | ht
      · exact hl.kind_ne_finish t ht
      · rw [List.mem_singleton.mp ht, hkind]
        exact nofun
    · intro ts hts
      rw [List.append_assoc]
      exact .node hkind hl hln hd hts
  have hwithin := h.within hnone hpasses [] []
  simpa using hwithin

end StopsAtMinus

theorem constantText_of_lt_zero {x : Float} (h : x < 0.0) :
    ∃ tail, (constantText x).toList = '-' :: tail := by
  obtain ⟨hsign, -, hle⟩ := lt_zero_iff.mp h
  have hnan : ¬ x.isNaN = true := by
    rw [isNaN_iff]
    omega
  by_cases hinf : x.isInf = true
  · have hnone : ¬ x > 0.0 := fun hpos => (zero_lt_iff.mp hpos).1 hsign
    rw [constantText, if_neg hnan, if_pos hinf, if_neg hnone]
    exact ⟨_, rfl⟩
  · have hfinite : doubleCode x < BinaryFormat.double.infinityCode := by
      rw [isInf_iff] at hinf
      omega
    obtain ⟨d, -, htext⟩ := constantText_finite hfinite
    rw [htext, if_pos h, String.toList_append]
    exact ⟨_, rfl⟩

namespace Expr

theorem piecesLength_pieces (e : Expr) : piecesLength e.pieces = byteLength e.render.toList := by
  rw [piecesLength, render_eq_pieces]

theorem piecesLength_basePieces (base : Expr) :
    piecesLength base.basePieces = byteLength base.baseText := by
  unfold basePieces baseText
  split
  · simp [piecesLength, Piece.chars, render_eq_pieces]
  · exact base.piecesLength_pieces

theorem mem_basePieces {base : Expr} {x : Float} :
    .constant x ∈ base.basePieces ↔ x ∈ base.constants := by
  unfold basePieces
  split
  · simp [mem_pieces]
  · exact mem_pieces

section
variable {limit : Nat} {l r : Expr}

private theorem stopsAtMinus_base
    (h : StopsAtMinus limit l.renderStratum l.pieces l.render.toList) :
    StopsAtMinus limit .power l.basePieces l.baseText := by
  unfold basePieces baseText
  split
  · exact h.group [.text ")"] [')']
  · next hpower =>
    have hatom : l.renderStratum = .atom := by rw [renderStratum, if_neg hpower]
    rw [hatom] at h
    simpa using h.append (by decide) [] []

/-- The left operand of an operator that is no power is read and leaves the right one due. -/
private theorem stopsAtMinus_right {op : Operator} (hop : op ≠ .pow) (hnames : l.WellNamed)
    (hdepth : l.depth ≤ limit) (hconstants : ∀ x ∈ l.constants, ¬ x < 0.0)
    (h : StopsAtMinus limit r.renderStratum r.pieces r.render.toList) :
    StopsAtMinus limit op.stratum (l.pieces ++ .text (" " ++ op.symbol ++ " ") :: r.pieces)
      (l.render.toList ++ (" " ++ op.symbol ++ " ").toList ++ r.render.toList) := by
  obtain ⟨hleft, -⟩ := operand_strata_le hop l
  obtain ⟨-, hright⟩ := operand_strata_le hop r
  have hlead : ∀ y, .constant y ∈ l.pieces → ¬ y < 0.0 := fun y hy =>
    hconstants y (mem_pieces.mp hy)
  have htext (rest : List Char) : (" " ++ op.symbol ++ " ").toList ++ rest =
      ' ' :: (op.symbol.toList ++ ' ' :: rest) := by simp [String.toList_append]
  have hsize : byteLength (" " ++ op.symbol ++ " ").toList = 3 := by cases op <;> rfl
  have hspells (rest : List Char) (position : Nat) : Spells op.leftStratum l.reread
      l.render.toList ((" " ++ op.symbol ++ " ").toList ++ rest) position := by
    rw [htext]
    have hblank : Delimits (' ' :: (op.symbol.toList ++ ' ' :: rest)) :=
      delimits_cons (by decide) (by decide)
    exact (l.spelledAs_reread hnames hconstants _ position hblank).loosen hleft
  have hsign (rest : List Char) (position : Nat) : ∃ sign : Token, sign.kind = .operator op ∧
      Passes ((" " ++ op.symbol ++ " ").toList ++ rest) position [sign] rest
        (position + byteLength (" " ++ op.symbol ++ " ").toList) := by
    rw [htext, hsize]
    exact ⟨_, rfl, Passes.operator op rest position⟩
  have hoperand : StopsAtMinus limit op.rightStratum r.pieces r.render.toList := by
    simpa using h.append hright [] []
  exact .beside (by rwa [reread_depth]) hlead l.piecesLength_pieces hspells hsign hoperand

/-- The base of a power is read and leaves the exponent due. -/
private theorem stopsAtMinus_exponent (hnames : l.WellNamed) (hdepth : l.depth ≤ limit)
    (hconstants : ∀ x ∈ l.constants, ¬ x < 0.0)
    (h : StopsAtMinus limit r.renderStratum r.pieces r.render.toList) :
    StopsAtMinus limit .power (l.basePieces ++ .text "^" :: (.text "(" :: r.pieces ++ [.text ")"]))
      (l.baseText ++ "^".toList ++ ('(' :: r.render.toList ++ [')'])) := by
  have hlead : ∀ y, .constant y ∈ l.basePieces → ¬ y < 0.0 := fun y hy =>
    hconstants y (mem_basePieces.mp hy)
  have hspells (rest : List Char) (position : Nat) :
      Spells (Operator.leftStratum .pow) l.reread l.baseText ("^".toList ++ rest) position :=
    (l.spelledAs_reread hnames hconstants).baseText (delimits_cons (by decide) (by decide))
  have hsign (rest : List Char) (position : Nat) : ∃ sign : Token, sign.kind = .operator .pow ∧
      Passes ("^".toList ++ rest) position [sign] rest (position + byteLength "^".toList) :=
    ⟨_, rfl, Passes.raise rest position⟩
  exact StopsAtMinus.beside (by rwa [reread_depth]) hlead l.piecesLength_basePieces hspells hsign
    (h.group [.text ")"] [')'])

/-- What stops in the left operand stops at once in the whole. -/
private theorem stopsAtMinus_of_left (op : Operator)
    (h : StopsAtMinus limit l.renderStratum l.pieces l.render.toList) :
    StopsAtMinus limit (binary op l r).renderStratum (binary op l r).pieces
      (binary op l r).render.toList := by
  by_cases hop : op = .pow
  · subst hop
    rw [pieces_pow, render_toList_pow]
    exact (stopsAtMinus_base h).append (Nat.le_refl _) _ _
  · have hgroup : StopsAtMinus limit (binary op l r).renderStratum _ _ :=
      h.group (.text (" " ++ op.symbol ++ " ") :: r.pieces ++ [.text ")"])
        (' ' :: (op.symbol.toList ++ ' ' :: r.render.toList) ++ [')'])
    rw [pieces_binary hop, render_toList_binary hop]
    simpa using hgroup

/-- What stops in the right operand stops in the whole, after the left one. -/
private theorem stopsAtMinus_of_right (op : Operator) (hnames : l.WellNamed)
    (hdepth : l.depth ≤ limit) (hconstants : ∀ x ∈ l.constants, ¬ x < 0.0)
    (h : StopsAtMinus limit r.renderStratum r.pieces r.render.toList) :
    StopsAtMinus limit (binary op l r).renderStratum (binary op l r).pieces
      (binary op l r).render.toList := by
  by_cases hop : op = .pow
  · subst hop
    have hexponent : StopsAtMinus limit (binary .pow l r).renderStratum _ _ :=
      stopsAtMinus_exponent hnames hdepth hconstants h
    rw [pieces_pow, render_toList_pow]
    simpa using hexponent
  · have hgroup : StopsAtMinus limit (binary op l r).renderStratum _ _ :=
      (stopsAtMinus_right hop hnames hdepth hconstants h).group [.text ")"] [')']
    rw [pieces_binary hop, render_toList_binary hop]
    simpa [String.toList_append] using hgroup

end

/-- A rendered expression is read until the minus of its first constant less than zero. -/
theorem stopsAtMinus {limit : Nat} {e : Expr} (hnames : e.WellNamed) (hdepth : e.depth ≤ limit)
    (hnegative : ∃ x ∈ e.constants, x < 0.0) :
    StopsAtMinus limit e.renderStratum e.pieces e.render.toList := by
  induction e with
  | constant value =>
    obtain ⟨x, hx, hlt⟩ := hnegative
    obtain rfl := List.mem_singleton.mp hx
    obtain ⟨tail, htext⟩ := constantText_of_lt_zero hlt
    refine ⟨[], x, [], rfl, by simp, hlt, fun rest position => ?_⟩
    refine ⟨[], tail ++ rest, ?_, by simp, .nil⟩
    rw [render, htext]
    rfl
  | «variable» name =>
    obtain ⟨x, hx, -⟩ := hnegative
    cases hx
  | binary op l r ihl ihr =>
    obtain ⟨hlnames, hrnames⟩ := wellNamed_binary.mp hnames
    rw [depth] at hdepth
    have hldepth : l.depth ≤ limit := by omega
    have hrdepth : r.depth ≤ limit := by omega
    by_cases hl : ∃ x ∈ l.constants, x < 0.0
    · exact stopsAtMinus_of_left op (ihl hlnames hldepth hl)
    · have hr : ∃ x ∈ r.constants, x < 0.0 := by
        obtain ⟨x, hx, hlt⟩ := hnegative
        rcases List.mem_append.mp hx with hx | hx
        · exact absurd ⟨x, hx, hlt⟩ hl
        · exact ⟨x, hx, hlt⟩
      have hlconstants : ∀ x ∈ l.constants, ¬ x < 0.0 := fun x hx hlt => hl ⟨x, hx, hlt⟩
      exact stopsAtMinus_of_right op hlnames hldepth hlconstants (ihr hrnames hrdepth hr)

end Expr

/-- A rendered expression whose names are names and whose constants are not less than zero is
parsed as it reads back. Otherwise the minus of the first constant less than zero is refused, at the
byte where the text of that constant begins. -/
theorem parseWithin_rendered {limit : Nat} {e : Expr} (hnames : e.WellNamed)
    (hdepth : e.depth ≤ limit) :
    ((∀ x ∈ e.constants, ¬ x < 0.0) → Expr.parseWithin limit e.render = .ok e.reread) ∧
      ((∃ x ∈ e.constants, x < 0.0) → ∃ before x after,
        e.pieces = before ++ .constant x :: after ∧
          e.render.toList = before.flatMap Piece.chars ++ (constantText x).toList ++
            after.flatMap Piece.chars ∧
          (∀ y, .constant y ∈ before → ¬ y < 0.0) ∧ x < 0.0 ∧
          Expr.parseWithin limit e.render =
            .error (.located .missingOperand (piecesLength before))) := by
  refine ⟨fun hconstants => parseWithin_of_render hnames hconstants hdepth, fun hnegative => ?_⟩
  obtain ⟨before, x, after, hpieces, hbefore, hx, hstop⟩ := e.stopsAtMinus hnames hdepth hnegative
  refine ⟨before, x, after, hpieces, ?_, hbefore, hx, ?_⟩
  · rw [e.render_eq_pieces, hpieces]
    simp [Piece.chars]
  · obtain ⟨ts, tail, hpasses, hkind, hdue⟩ := hstop [] 0
    have hstart : e.renderStratum.MayStart [] := trivial
    obtain ⟨s, hrun, hoperand⟩ := hdue [] [] hstart
    rw [Passes, List.append_nil, Nat.zero_add, Passes.minus] at hpasses
    rw [Expr.parseWithin, tokenStream_eq, hpasses, consume_append hkind, State.initial, hrun,
      ok_bind]
    simp [consume, step, requireOperatorDue, hoperand]

/-- Next to a name, a negative zero loses its sign, and the minus of a negative number is refused. -/
theorem parseWithin_rendered_minus :
    Expr.parseWithin 2 (Expr.add (.variable "x1") (.constant (-0.0))).render =
        .ok (Expr.add (.variable "x1") (.constant 0.0)) ∧
      Expr.parseWithin 2 (Expr.add (.variable "x1") (.constant (-2.5))).render =
        .error (.located .missingOperand 6) := by
  have hnames (value : Float) : (Expr.add (.variable "x1") (.constant value)).WellNamed := by
    intro name hname
    obtain rfl : name = "x1" := by simpa [Expr.add, Expr.names] using hname
    decide
  have hdepth (value : Float) : (Expr.add (.variable "x1") (.constant value)).depth ≤ 2 :=
    Nat.le_refl 2
  refine ⟨(parseWithin_rendered (hnames _) (hdepth _)).1 ?_, ?_⟩
  · intro x hx
    obtain rfl : x = -0.0 := by simpa [Expr.add, Expr.constants] using hx
    decide
  · have hnegative : ∃ x ∈ (Expr.add (.variable "x1") (.constant (-2.5))).constants, x < 0.0 :=
      ⟨-2.5, by simp [Expr.add, Expr.constants], by decide⟩
    obtain ⟨before, x, after, hpieces, -, -, -, hrefused⟩ :=
      (parseWithin_rendered (hnames (-2.5)) (hdepth (-2.5))).2 hnegative
    obtain ⟨rfl, -, -⟩ : before = [.text "(", .text "x1", .text (" " ++ Operator.add.symbol ++ " ")] ∧
        x = -2.5 ∧ after = [.text ")"] := by
      simpa [Expr.add, Expr.pieces, List.cons_eq_append_iff] using hpieces
    exact hrefused

end Fluxion
