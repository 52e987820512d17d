import Fluxion.Proofs.Parser.Settling

/-! What has been read when the parser has not refused: behind each waiting operator stands a
phrase that fits its left operand, and operators wait in the order in which they may start. -/
namespace Fluxion
open Fluxion.Parser

namespace Parser
variable {limit : Nat} {waiting rest : List Waiting} {operands result : List Operand}

def pending (ops : List (Operator × Nat)) : List Waiting := ops.map fun o => .operator o.1 o.2

@[simp] theorem pending_nil : pending [] = [] := rfl

@[simp] theorem pending_cons (o : Operator × Nat) (ops : List (Operator × Nat)) :
    pending (o :: ops) = .operator o.1 o.2 :: pending ops := rfl

theorem bindsBefore_tighter {top arriving op : Operator} (h : bindsBefore top arriving = false)
    (hop : arriving.precedence ≤ op.precedence) : bindsBefore top op = false := by
  revert h hop
  cases top <;> cases arriving <;> cases op <;> decide

/-- An arriving operator takes off the operators that bind before it, and no more. -/
theorem reduceBefore_waiting {arriving : Operator}
    (h : reduceBefore limit arriving waiting operands = .ok (rest, result)) :
    ∃ ops, waiting = pending ops ++ rest ∧ (∀ o ∈ ops, bindsBefore o.1 arriving = true) ∧
      arriving.stratum.MayStart rest := by
  induction waiting generalizing operands with
  | nil =>
    obtain ⟨rfl, rfl⟩ : [] = rest ∧ operands = result := by simpa [reduceBefore] using h
    exact ⟨[], rfl, by simp, trivial⟩
  | cons first waiting ih =>
    cases first with
    | openParen position =>
      obtain ⟨rfl, rfl⟩ : .openParen position :: waiting = rest ∧ operands = result := by
        simpa [reduceBefore] using h
      exact ⟨[], rfl, by simp, trivial⟩
    | operator top position =>
      by_cases hb : bindsBefore top arriving = true
      · simp only [reduceBefore, hb, if_true, bind_eq_bind, bind_eq_ok] at h
        obtain ⟨_, _, h⟩ := h
        obtain ⟨ops, rfl, hops, hrest⟩ := ih h
        exact ⟨(top, position) :: ops, rfl, by simpa [hb] using hops, hrest⟩
      · have hb := Bool.eq_false_iff.mpr hb
        obtain ⟨rfl, rfl⟩ : .operator top position :: waiting = rest ∧ operands = result := by
          simpa [reduceBefore, hb] using h
        refine ⟨[], rfl, by simp, fun op hop => bindsBefore_tighter hb ?_⟩
        simpa using hop

/-- A closing parenthesis takes off all operators down to the last opening one, and that. -/
theorem reduceToParen_waiting {position : Nat}
    (h : reduceToParen limit position waiting operands = .ok (rest, result)) :
    ∃ ops opened, waiting = pending ops ++ .openParen opened :: rest := by
  induction waiting generalizing operands with
  | nil => simp [reduceToParen] at h
  | cons first waiting ih =>
    cases first with
    | openParen opened =>
      obtain ⟨rfl, rfl⟩ : waiting = rest ∧ operands = result := by simpa [reduceToParen] using h
      exact ⟨[], opened, rfl⟩
    | operator op opPosition =>
      simp only [reduceToParen, bind_eq_bind, bind_eq_ok] at h
      obtain ⟨_, _, h⟩ := h
      obtain ⟨ops, opened, rfl⟩ := ih h
      exact ⟨(op, opPosition) :: ops, opened, rfl⟩

/-- At the end only operators wait. -/
theorem reduceAll_waiting (h : reduceAll limit waiting operands = .ok result) :
    ∃ ops, waiting = pending ops := by
  induction waiting generalizing operands with
  | nil => exact ⟨[], rfl⟩
  | cons first waiting ih =>
    cases first with
    | openParen opened => simp [reduceAll] at h
    | operator op opPosition =>
      simp only [reduceAll, bind_eq_bind, bind_eq_ok] at h
      obtain ⟨_, _, h⟩ := h
      obtain ⟨ops, rfl⟩ := ih h
      exact ⟨(op, opPosition) :: ops, rfl⟩

end Parser

/-- `Awaits waiting ts`: the tokens `ts` leave `waiting` behind and an operand due. -/
inductive Awaits : List Waiting → List Token → Prop
  | start : Awaits [] []
  | openParen {waiting : List Waiting} {ts : List Token} {o : Token} (h : Awaits waiting ts)
      (ho : o.kind = .openParen) : Awaits (.openParen o.position :: waiting) (ts ++ [o])
  | operator {waiting : List Waiting} {ts ls : List Token} {l : Phrase} {op : Operator}
      {sign : Token} (h : Awaits waiting ts) (hw : op.stratum.MayStart waiting)
      (hl : Derives op.leftStratum ls l) (hs : sign.kind = .operator op) :
      Awaits (.operator op sign.position :: waiting) (ts ++ ls ++ [sign])

def Stratum.Fits (τ : Stratum) : List Waiting → Prop
  | .operator top _ :: _ => top.rightStratum.level ≤ τ.level
  | _ => True

theorem Stratum.MayStart.fits {op : Operator} {waiting : List Waiting}
    (h : op.stratum.MayStart waiting) : op.stratum.Fits waiting := by
  unfold Stratum.MayStart at h
  unfold Stratum.Fits
  split
  · exact Operator.right_of_bindsBefore (h op (by simp))
  · trivial

theorem Stratum.atom_fits (waiting : List Waiting) : Stratum.atom.Fits waiting := by
  unfold Stratum.Fits
  split
  · next top _ _ => cases top <;> decide
  · trivial

/-- Operators that are taken off turn the phrases behind and after them into one. -/
theorem Awaits.combine {σ τ : Stratum} {ops : List (Operator × Nat)} {waiting : List Waiting}
    {ts us : List Token} {p : Phrase} (h : Awaits (pending ops ++ waiting) ts)
    (hp : Derives τ us p) (hfit : τ.Fits (pending ops ++ waiting)) (hτ : σ.level ≤ τ.level)
    (hops : ∀ o ∈ ops, σ.level ≤ o.1.stratum.level) :
    ∃ ts' us' q, ts ++ us = ts' ++ us' ∧ Awaits waiting ts' ∧ Derives σ us' q := by
  induction ops generalizing τ ts us p with
  | nil => exact ⟨ts, us, p, rfl, h, hp.loosen hτ⟩
  | cons o ops ih =>
    obtain ⟨op, position⟩ := o
    simp only [pending_cons, List.cons_append] at h hfit
    cases h with
    | @operator _ ts ls l _ sign h hw hl hs =>
      have hnode := Derives.node hs hl (hp.loosen hfit)
      obtain ⟨ts', us', q, heq, hrest, hq⟩ :=
        ih h hnode hw.fits (hops _ List.mem_cons_self) (fun o' ho' => hops o' (by simp [ho']))
      exact ⟨ts', us', q, by simpa using heq, hrest, hq⟩

/-- `s.Reads ts`: the state `s` is what significant tokens `ts` have led to. An operand that is
not due has just ended with an atom. -/
def Parser.State.Reads (s : State) (ts : List Token) : Prop :=
  if s.operandDue then Awaits s.waiting ts
  else ∃ before us p, ts = before ++ us ∧ Awaits s.waiting before ∧ Derives .atom us p

namespace Parser
variable {limit : Nat} {s s' : State} {t : Token} {ts : List Token}

theorem operandDue_of_ok {position : Nat} {u : Unit}
    (h : requireOperandDue s position = .ok u) : s.operandDue = true := by
  unfold requireOperandDue at h
  split at h
  · assumption
  · cases h

theorem operatorDue_of_ok {position : Nat} {u : Unit}
    (h : requireOperatorDue s position = .ok u) : s.operandDue = false := by
  unfold requireOperatorDue at h
  split at h
  · cases h
  · simpa using ‹¬ s.operandDue = true›

theorem reads_leaf {leaf : Expr} (h : placeLeaf limit leaf t.position s = .ok s')
    (hdue : s.operandDue = true) (hr : s.Reads ts) (ht : Derives .atom [t] (.leaf t)) :
    s'.Reads (ts ++ [t]) := by
  obtain ⟨operands, _, h⟩ := bind_eq_ok.mp h
  obtain rfl : { s with operands := operands, operandDue := false } = s' := by simpa using h
  have hawaits : Awaits s.waiting ts := by simpa [State.Reads, hdue] using hr
  exact ⟨ts, [t], .leaf t, rfl, hawaits, ht⟩

/-- Each significant token that is taken continues what was read. -/
theorem step_reads (h : step limit s t = .ok s') (hr : s.Reads ts) (ht : t.isSignificant = true) :
    s'.Reads (ts ++ [t]) := by
  unfold step at h
  split at h
  · next hk =>
    obtain ⟨_, hd, h⟩ := bind_eq_ok.mp h
    obtain ⟨_, _, h⟩ := bind_eq_ok.mp h
    exact reads_leaf h (operandDue_of_ok hd) hr (.number hk)
  · next hk =>
    obtain ⟨_, hd, h⟩ := bind_eq_ok.mp h
    exact reads_leaf h (operandDue_of_ok hd) hr (.name hk)
  · next hk =>
    obtain ⟨_, hd, h⟩ := bind_eq_ok.mp h
    have hdue := operandDue_of_ok hd
    obtain rfl : { s with waiting := .openParen t.position :: s.waiting } = s' := by simpa using h
    simp only [State.Reads, hdue, if_true] at hr ⊢
    exact hr.openParen hk
  · next hk =>
    obtain ⟨_, hd, h⟩ := bind_eq_ok.mp h
    have hdue := operatorDue_of_ok hd
    obtain ⟨⟨rest, operands⟩, hreduce, h⟩ := bind_eq_ok.mp h
    obtain rfl : { s with waiting := rest, operands := operands } = s' := by simpa using h
    simp only [State.Reads, hdue, Bool.false_eq_true, if_false] at hr ⊢
    obtain ⟨before, us, p, rfl, hawaits, hp⟩ := hr
    obtain ⟨ops, opened, hwaiting⟩ := reduceToParen_waiting hreduce
    rw [hwaiting] at hawaits
    obtain ⟨ts', us', q, heq, hopen, hq⟩ := hawaits.combine (σ := .sum) hp (Stratum.atom_fits _)
      (by decide) (fun o _ => by cases o.1 <;> decide)
    cases hopen with
    | @openParen _ ts' o hrest ho =>
      exact ⟨ts', o :: us' ++ [t], q, by simp [heq], hrest, .group ho hk hq⟩
  · next op hk =>
    obtain ⟨_, hd, h⟩ := bind_eq_ok.mp h
    have hdue := operatorDue_of_ok hd
    obtain ⟨⟨rest, operands⟩, hreduce, h⟩ := bind_eq_ok.mp h
    obtain rfl : ⟨.operator op t.position :: rest, operands, true⟩ = s' := by simpa using h
    simp only [State.Reads, hdue, Bool.false_eq_true, if_false, if_true] at hr ⊢
    obtain ⟨before, us, p, rfl, hawaits, hp⟩ := hr
    obtain ⟨ops, hwaiting, hops, hrest⟩ := reduceBefore_waiting hreduce
    rw [hwaiting] at hawaits
    obtain ⟨ts', us', q, heq, hawaits', hq⟩ := hawaits.combine (σ := op.leftStratum) hp
      (Stratum.atom_fits _) (by cases op <;> decide)
      (fun o ho => Operator.left_of_bindsBefore (hops o ho))
    rw [heq]
    exact hawaits'.operator hrest hq hk
  · simp [Token.isSignificant, *] at ht
  · simp [Token.isSignificant, *] at ht

/-- Tokens that are taken one after the other continue what was read. -/
theorem run_reads {us : List Token} (h : run limit s us = .ok s') (hr : s.Reads ts)
    (hus : ∀ t ∈ us, t.isSignificant = true) : s'.Reads (ts ++ us) := by
  induction us generalizing s ts with
  | nil =>
    obtain rfl : s = s' := by simpa using h
    simpa using hr
  | cons t us ih =>
    obtain ⟨next, hstep, h⟩ := bind_eq_ok.mp h
    have hnext := step_reads hstep hr (hus t (by simp))
    simpa using ih h hnext (fun u hu => hus u (by simp [hu]))

/-- What completes at the end of the text is derivable as a whole. -/
theorem derives_of_complete {position : Nat} {e : Expr} (hr : s.Reads ts)
    (h : complete limit s position = .ok e) : ∃ p, Derives .sum ts p := by
  obtain ⟨_, hd, h⟩ := bind_eq_ok.mp h
  obtain ⟨_, hreduce, _⟩ := bind_eq_ok.mp h
  simp only [State.Reads, operatorDue_of_ok hd, Bool.false_eq_true, if_false] at hr
  obtain ⟨before, us, p, rfl, hawaits, hp⟩ := hr
  obtain ⟨ops, hwaiting⟩ := reduceAll_waiting hreduce
  rw [hwaiting, ← List.append_nil (pending ops)] at hawaits
  obtain ⟨ts', us', q, heq, hstart, hq⟩ := hawaits.combine (σ := .sum) hp (Stratum.atom_fits _)
    (by decide) (fun o _ => by cases o.1 <;> decide)
  cases hstart
  exact ⟨q, by simpa [heq] using hq⟩

/-- Tokens that make an expression are derivable. -/
theorem derives_of_run {position : Nat} {e : Expr}
    (h : run limit .initial ts >>= (fun s => complete limit s position) = .ok e) :
    ∃ p, Derives .sum (significant ts) p := by
  obtain ⟨s, hrun, hc⟩ := bind_eq_ok.mp h
  rw [← run_significant] at hrun
  have hstart : State.initial.Reads [] := Awaits.start
  have hr := run_reads hrun hstart fun t ht => (List.mem_filter.mp ht).2
  exact derives_of_complete hr hc

end Parser
end Fluxion
