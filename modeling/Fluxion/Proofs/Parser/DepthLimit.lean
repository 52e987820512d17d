import Fluxion.Proofs.Parser.Scan

/-! What a limit on depth does: nothing to the tree, and if the tree is too deep it is refused at the
first part that is, in the order in which the parts are finished. -/
namespace Fluxion
open Fluxion.Parser

theorem Expr.depth_pos (e : Expr) : 0 < e.depth := by
  cases e with
  | constant value => exact Nat.one_pos
  | «variable» name => exact Nat.one_pos
  | binary op l r => exact Nat.add_pos_left Nat.one_pos _

namespace Phrase

def root : Phrase → Token
  | .leaf t => t
  | .node _ sign _ _ => sign

def postorder : Phrase → List Phrase
  | .leaf t => [.leaf t]
  | .node op sign left right => left.postorder ++ right.postorder ++ [.node op sign left right]

def firstDeeper? (limit : Nat) (p : Phrase) : Option Phrase :=
  p.postorder.find? fun part => limit < part.expr.depth

variable {limit : Nat} {p : Phrase}

theorem firstDeeper?_node {op : Operator} {sign : Token} {l r : Phrase} :
    (node op sign l r).firstDeeper? limit =
      ((l.firstDeeper? limit).or (r.firstDeeper? limit)).or
        (if limit < (node op sign l r).expr.depth then some (node op sign l r) else none) := by
  simp only [firstDeeper?, postorder, List.find?_append, List.find?_cons, List.find?_nil]
  by_cases h : limit < (node op sign l r).expr.depth <;> simp [h]

/-- No part is deeper than the whole. -/
theorem firstDeeper?_eq_none_iff : p.firstDeeper? limit = none ↔ p.expr.depth ≤ limit := by
  induction p with
  | leaf t => simp [firstDeeper?, postorder]
  | node op sign l r ihl ihr =>
    simp only [firstDeeper?_node, Option.or_eq_none_iff, ihl, ihr, expr, Expr.depth]
    split
    · simp; omega
    · simp; omega

theorem postorder_eq_leaf_cons (p : Phrase) : ∃ t rest, p.postorder = .leaf t :: rest := by
  induction p with
  | leaf t => exact ⟨t, [], rfl⟩
  | node op sign l r ihl ihr =>
    obtain ⟨t, rest, hl⟩ := ihl
    exact ⟨t, _, by rw [postorder, hl]; rfl⟩

theorem leafExpr_depth (t : Token) : (leafExpr t).depth = 1 := by
  unfold leafExpr
  split <;> rfl

/-- A limit of zero stops at a leaf, the first one, and no other limit does. -/
theorem firstDeeper?_leaf_iff {part : Phrase} (h : p.firstDeeper? limit = some part) :
    (∃ t, part = .leaf t) ↔ limit = 0 := by
  constructor
  · rintro ⟨t, rfl⟩
    have hdeep : limit < (leaf t).expr.depth := by simpa using List.find?_some h
    rw [expr, leafExpr_depth] at hdeep
    omega
  · rintro rfl
    obtain ⟨t, rest, hp⟩ := p.postorder_eq_leaf_cons
    rw [firstDeeper?, hp, List.find?_cons_of_pos (by simp [Expr.depth_pos])] at h
    exact ⟨t, (Option.some.inj h).symm⟩

theorem settle_leaf_eq {t : Token} (hn : (leaf t).WellNumbered) (operands : List Operand) :
    (leaf t).settle limit operands = place limit ⟨leafExpr t, 1⟩ t.position operands := by
  by_cases hk : t.kind = .number
  · have hvalue := hn t (by simp [leaves]) hk
    obtain ⟨value, hv⟩ := Option.isSome_iff_exists.mp hvalue
    simp [settle, numberValue, leafExpr, hk, hv]
  · simp [settle, leafExpr, hk]

/-- Settling a syntax tree stops at its first part that is too deep. -/
theorem settle_eq (hn : p.WellNumbered) (operands : List Operand) :
    p.settle limit operands =
      match p.firstDeeper? limit with
      | some part => .error (.located .tooDeep part.root.position)
      | none => .ok (⟨p.expr, p.expr.depth⟩ :: operands) := by
  induction p generalizing operands with
  | leaf t =>
    rw [settle_leaf_eq hn, place, firstDeeper?, postorder, List.find?_cons, List.find?_nil, expr,
      leafExpr_depth]
    by_cases h : limit < 1 <;> simp [h, root]
  | node op sign l r ihl ihr =>
    obtain ⟨hl, hr⟩ := wellNumbered_node.mp hn
    rw [settle, ihl hl, firstDeeper?_node]
    cases hdl : l.firstDeeper? limit with
    | some part => rfl
    | none =>
      rw [ok_bind, ihr hr]
      cases hdr : r.firstDeeper? limit with
      | some part => rfl
      | none =>
        have hreduce : reduce limit op sign.position
            (⟨r.expr, r.expr.depth⟩ :: ⟨l.expr, l.expr.depth⟩ :: operands) =
              place limit ⟨(node op sign l r).expr, (node op sign l r).expr.depth⟩ sign.position
                operands := rfl
        rw [ok_bind, hreduce, place]
        by_cases h : limit < (node op sign l r).expr.depth
        · rw [if_pos h, if_pos h]
          rfl
        · rw [if_neg h, if_neg h]
          rfl

end Phrase

theorem kind_ne_finish_of_tokenize {input : String} {body : List Token} {last : Token}
    (h : tokenize input = .ok (body ++ [last])) : ∀ t ∈ body, t.kind ≠ .finish := by
  obtain ⟨body', last', hstream, -, hbody⟩ := streamFrom_shape input.toList 0
  rw [tokenize_eq_ok_iff, tokenStream_eq, hstream, List.map_append] at h
  obtain ⟨hbodies, -⟩ := List.append_inj' h rfl
  obtain rfl := (List.map_inj_right fun _ _ => Except.ok.inj).mp hbodies
  exact fun t ht => (hbody t ht).1

/-- What the parser makes of derivable tokens under any limit. -/
theorem parseWithin_of_derives {input : String} {body : List Token} {last : Token} {p : Phrase}
    (hinput : tokenize input = .ok (body ++ [last])) (hlast : last.kind = .finish)
    (hp : Derives .sum (significant body) p) (hn : p.WellNumbered) (limit : Nat) :
    Expr.parseWithin limit input =
      match p.firstDeeper? limit with
      | some part => .error (.located .tooDeep part.root.position)
      | none => .ok p.expr := by
  have hstart : Stratum.sum.MayStart [] := trivial
  have hrun := hp.settles hstart (combines_complete limit last.position) []
  rw [Expr.parseWithin, tokenize_eq_ok_iff.mp hinput, List.map_append,
    consume_append (kind_ne_finish_of_tokenize hinput), List.map_singleton]
  simp only [consume_finish hlast]
  rw [← run_significant, State.initial, hrun, p.settle_eq hn]
  cases p.firstDeeper? limit with
  | some part => rfl
  | none => simp [complete, requireOperatorDue, reduceAll]

section
variable {input : String} {limit : Nat} {e : Expr}

/-- A formula that is parsed under one limit has a syntax tree that decides about all limits. -/
theorem exists_phrase_of_parseWithin (h : Expr.parseWithin limit input = .ok e) :
    ∃ (tokens : List Token) (p : Phrase), tokenize input = .ok tokens ∧
      Derives .sum (significant tokens) p ∧ p.expr = e ∧
      ∀ limit, Expr.parseWithin limit input =
        match p.firstDeeper? limit with
        | some part => .error (.located .tooDeep part.root.position)
        | none => .ok e := by
  obtain ⟨body, last, p, hinput, hlast, -, hp, hn, -, rfl⟩ := parseWithin_eq_ok_iff_derived.mp h
  refine ⟨_, p, hinput, ?_, rfl, parseWithin_of_derives hinput hlast hp hn⟩
  rwa [significant_append_finish hlast]

/-- Only the depth of the tree decides whether it is accepted. -/
theorem parseWithin_eq_ok_iff_depth (h : Expr.parseWithin limit input = .ok e) (other : Nat) :
    Expr.parseWithin other input = .ok e ↔ e.depth ≤ other := by
  obtain ⟨_, p, -, -, rfl, hall⟩ := exists_phrase_of_parseWithin h
  rw [hall, ← Phrase.firstDeeper?_eq_none_iff]
  cases p.firstDeeper? other <;> simp

theorem parseWithin_eq_ok_unique {other : Nat} {e' : Expr}
    (h : Expr.parseWithin limit input = .ok e) (h' : Expr.parseWithin other input = .ok e') :
    e = e' := by
  obtain ⟨_, p, -, -, -, hall⟩ := exists_phrase_of_parseWithin h
  rw [hall] at h'
  split at h'
  · cases h'
  · exact Except.ok.inj h'

/-- A formula that is refused under an ample limit is refused under any: for the same fault, or
before that for its depth, at an operand or an operator. -/
theorem parseWithin_of_error {ample : Nat} {fault : Diagnostic}
    (hample : operandCount (tokenStream input) ≤ ample)
    (h : Expr.parseWithin ample input = .error fault) (limit : Nat) :
    Expr.parseWithin limit input = .error fault ∨ ∃ position,
      IsBlamable (tokenStream input) position ∧
        Expr.parseWithin limit input = .error (.located .tooDeep position) := by
  have hscan := ((parseWithin_obeys ample input).iff_of_le hample fault).mp h
  rcases parseWithin_obeys limit input with ⟨-, hdeep⟩ | hlimit
  · exact .inr hdeep
  · rw [hscan] at hlimit
    exact .inl hlimit

end

/-- What a limit on depth does to a formula, told by an ample limit, under which no tree is too
deep. A formula that has a tree keeps it under each limit that is no less than its depth; any other
limit stops at the first part, in the order in which parts are finished, that is too deep, and
blames its root. A formula that is refused may be refused for its depth before. So a greater limit
accepts more and never another tree, and texts with the same tree, however many parentheses they
have, are accepted under the same limits. -/
theorem parseWithin_limited {input : String} {ample : Nat}
    (hample : operandCount (tokenStream input) ≤ ample) :
    (∀ e, Expr.parseWithin ample input = .ok e →
      ∃ (tokens : List Token) (p : Phrase), tokenize input = .ok tokens ∧
        Derives .sum (significant tokens) p ∧ p.expr = e ∧ ∀ limit,
          (e.depth ≤ limit → Expr.parseWithin limit input = .ok e) ∧
          (limit < e.depth → ∃ part, p.firstDeeper? limit = some part ∧
            ((∃ t, part = .leaf t) ↔ limit = 0) ∧
            Expr.parseWithin limit input = .error (.located .tooDeep part.root.position))) ∧
    (∀ fault, Expr.parseWithin ample input = .error fault → ∀ limit,
      Expr.parseWithin limit input = .error fault ∨ ∃ position,
        IsBlamable (tokenStream input) position ∧
          Expr.parseWithin limit input = .error (.located .tooDeep position)) ∧
    (∀ limit greater e, limit ≤ greater → Expr.parseWithin limit input = .ok e →
      Expr.parseWithin greater input = .ok e) ∧
    (∀ limit other e e', Expr.parseWithin limit input = .ok e →
      Expr.parseWithin other input = .ok e' → e = e') ∧
    ∀ text other e, Expr.parseWithin ample input = .ok e → Expr.parseWithin other text = .ok e →
      ∀ limit, Expr.parseWithin limit input = .ok e ↔ Expr.parseWithin limit text = .ok e := by
  refine ⟨?_, fun _ => parseWithin_of_error hample, ?_, ?_, ?_⟩
  · intro e h
    obtain ⟨tokens, p, hinput, hp, rfl, hall⟩ := exists_phrase_of_parseWithin h
    refine ⟨tokens, p, hinput, hp, rfl, fun limit => ⟨?_, fun hdeep => ?_⟩⟩
    · exact (parseWithin_eq_ok_iff_depth h limit).mpr
    · cases hpart : p.firstDeeper? limit with
      | none =>
        have hle := Phrase.firstDeeper?_eq_none_iff.mp hpart
        omega
      | some part =>
        refine ⟨part, rfl, Phrase.firstDeeper?_leaf_iff hpart, ?_⟩
        rw [hall, hpart]
  · intro limit greater e hle h
    have hdepth := (parseWithin_eq_ok_iff_depth h limit).mp h
    exact (parseWithin_eq_ok_iff_depth h greater).mpr (Nat.le_trans hdepth hle)
  · exact fun _ _ _ _ => parseWithin_eq_ok_unique
  · intro text other e h htext limit
    rw [parseWithin_eq_ok_iff_depth h, parseWithin_eq_ok_iff_depth htext]

/-- A sum of depth three in parentheses keeps its tree under a greater limit, is refused under a
limit of two for a part of a greater depth, and needs no more than the same sum without them. -/
theorem parseWithin_limited_sum :
    operandCount (tokenStream "((a + b)) + c") ≤ 3 ∧
      ∃ sum : Expr, sum.depth = 3 ∧ Expr.parseWithin 3 "((a + b)) + c" = .ok sum ∧
        Expr.parseWithin 4 "((a + b)) + c" = .ok sum ∧
        (∃ part : Phrase, 2 < part.expr.depth ∧
          Expr.parseWithin 2 "((a + b)) + c" = .error (.located .tooDeep part.root.position)) ∧
        ∀ limit, Expr.parseWithin limit "((a + b)) + c" = .ok sum ↔
          Expr.parseWithin limit "a + b + c" = .ok sum := by
  let sum := Expr.add (.add (.variable "a") (.variable "b")) (.variable "c")
  have hcount : operandCount (tokenStream "((a + b)) + c") ≤ 3 := by decide +kernel
  have hsum : Expr.parseWithin 3 "((a + b)) + c" = .ok sum := by cbv
  have hplain : Expr.parseWithin 3 "a + b + c" = .ok sum := by cbv
  obtain ⟨htree, -, hgreater, -, hsame⟩ := parseWithin_limited hcount
  refine ⟨hcount, sum, rfl, hsum, hgreater 3 4 sum (by decide) hsum, ?_,
    hsame _ 3 sum hsum hplain⟩
  obtain ⟨tokens, p, -, -, -, hlimits⟩ := htree sum hsum
  obtain ⟨part, hpart, -, hrefused⟩ := (hlimits 2).2 (by decide)
  exact ⟨part, by simpa using List.find?_some hpart, hrefused⟩

end Fluxion
