import TraceCalculus.Proofs.Instances
import TraceCalculus.Proofs.RunRules

/-! # What a rule of the first stage does to a node

`IsolatingStep e o`: some rule that isolates differentials matches `e` and leads to `o`. The matches
at a node are exactly its steps (`isolatingStep_iff`), so whatever a rule of this stage can do is seen
by cases on the steps, and where no rule is chosen every step leads back (`isSeen_of_choose_eq_none`).
-/

set_option autoImplicit false

namespace TraceCalculus

open Stage (isolating)

variable {S : Type} [ExactScalar S]

/-- One rule of the first stage, applied to a node. -/
inductive IsolatingStep : Expr S → Expr S → Prop
  | rotate {a b : Expr S} (h : a.hasDifferential = true) :
      IsolatingStep (.trace (.matMul a b)) (b * a).traced
  | traceAdd {a b : Expr S} (h : (Expr.add a b).hasDifferential = true) :
      IsolatingStep (.trace (.add a b)) (a.traced + b.traced)
  | traceSub {a b : Expr S} (h : (Expr.sub a b).hasDifferential = true) :
      IsolatingStep (.trace (.sub a b)) (a.traced - b.traced)
  | turn {a b : Expr S} (h : b.hasDifferential = true) :
      IsolatingStep (.trace (.matMul a (.transpose b))) (a.transposed * b).traced
  | traceTranspose {a : Expr S} (h : a.hasDifferential = true) :
      IsolatingStep (.trace (.transpose a)) a.traced
  | addMatMul {a b c : Expr S} (h : (Expr.add a b).hasDifferential = true) :
      IsolatingStep (.matMul (.add a b) c) (a * c + b * c)
  | matMulAdd {a b c : Expr S} (h : (Expr.add b c).hasDifferential = true) :
      IsolatingStep (.matMul a (.add b c)) (a * b + a * c)
  | subMatMul {a b c : Expr S} (h : (Expr.sub a b).hasDifferential = true) :
      IsolatingStep (.matMul (.sub a b) c) (a * c - b * c)
  | matMulSub {a b c : Expr S} (h : (Expr.sub b c).hasDifferential = true) :
      IsolatingStep (.matMul a (.sub b c)) (a * b - a * c)
  | associate {a b c : Expr S} (h : (Expr.matMul b c).hasDifferential = true) :
      IsolatingStep (.trace (.matMul a (.matMul b c))) (a * b * c).traced
  | transposeMatMul {a b : Expr S} (h : (Expr.matMul a b).hasDifferential = true) :
      IsolatingStep (.transpose (.matMul a b)) (b.transposed * a.transposed)
  | transposeAdd {a b : Expr S} (h : (Expr.add a b).hasDifferential = true) :
      IsolatingStep (.transpose (.add a b)) (a.transposed + b.transposed)
  | transposeSub {a b : Expr S} (h : (Expr.sub a b).hasDifferential = true) :
      IsolatingStep (.transpose (.sub a b)) (a.transposed - b.transposed)
  | transposeScale {s a : Expr S} (h : s.isScalar = true) :
      IsolatingStep (.transpose (.scale s a)) (s * a.transposed)
  | traceScale {s a : Expr S} (h : s.isScalar = true) :
      IsolatingStep (.trace (.scale s a)) (s * a.traced)

theorem isolatingStep_of_match {e : Expr S} {rule : Rule S} {σ : Assignment S}
    (hr : rule ∈ isolating) (hm : e.matchAgainst rule.pattern = .ok σ) :
    IsolatingStep e (rule.replacement.subst σ) := by
  have hf := Expr.faces_of_matchAgainst hm
  rw [← Expr.instantiate_of_matchAgainst hm]
  simp only [isolating, List.mem_cons, List.not_mem_nil, or_false] at hr
  rcases hr with rfl | rfl | rfl | rfl | rfl | rfl | rfl | rfl | rfl | rfl | rfl | rfl | rfl | rfl | rfl
  · exact .rotate hf.1.1
  · exact .traceAdd hf.1
  · exact .traceSub hf.1
  · exact .turn hf.2.1
  · exact .traceTranspose hf.1
  · exact .addMatMul hf.1.1
  · exact .matMulAdd hf.2.1
  · exact .subMatMul hf.1.1
  · exact .matMulSub hf.2.1
  · exact .associate hf.2.1
  · exact .transposeMatMul hf.1
  · exact .transposeAdd hf.1
  · exact .transposeSub hf.1
  · exact .transposeScale hf.1
  · exact .traceScale hf.1

theorem exists_mem_of_isolatingStep {e o : Expr S} (h : IsolatingStep e o) :
    ∃ m ∈ ruleMatches e isolating, m.output = o := by
  cases h with
  | @rotate a b h =>
    refine exists_ruleMatch 0 [("B", b), ("A", a)] rfl ?_ rfl
    simp only [Expr.matchAgainst, Expr.matchFrom, h]
    rfl
  | @traceAdd a b h =>
    refine exists_ruleMatch 1 [("B", b), ("A", a)] rfl ?_ rfl
    simp only [Expr.matchAgainst, Expr.matchFrom, h]
    rfl
  | @traceSub a b h =>
    refine exists_ruleMatch 2 [("B", b), ("A", a)] rfl ?_ rfl
    simp only [Expr.matchAgainst, Expr.matchFrom, h]
    rfl
  | @turn a b h =>
    refine exists_ruleMatch 3 [("B", b), ("A", a)] rfl ?_ rfl
    simp only [Expr.matchAgainst, Expr.matchFrom, h]
    rfl
  | @traceTranspose a h =>
    refine exists_ruleMatch 4 [("A", a)] rfl ?_ rfl
    simp only [Expr.matchAgainst, Expr.matchFrom, h]
    rfl
  | @addMatMul a b c h =>
    refine exists_ruleMatch 5 [("C", c), ("B", b), ("A", a)] rfl ?_ rfl
    simp only [Expr.matchAgainst, Expr.matchFrom, h]
    rfl
  | @matMulAdd a b c h =>
    refine exists_ruleMatch 6 [("C", c), ("B", b), ("A", a)] rfl ?_ rfl
    simp only [Expr.matchAgainst, Expr.matchFrom, h]
    rfl
  | @subMatMul a b c h =>
    refine exists_ruleMatch 7 [("C", c), ("B", b), ("A", a)] rfl ?_ rfl
    simp only [Expr.matchAgainst, Expr.matchFrom, h]
    rfl
  | @matMulSub a b c h =>
    refine exists_ruleMatch 8 [("C", c), ("B", b), ("A", a)] rfl ?_ rfl
    simp only [Expr.matchAgainst, Expr.matchFrom, h]
    rfl
  | @associate a b c h =>
    refine exists_ruleMatch 9 [("C", c), ("B", b), ("A", a)] rfl ?_ rfl
    simp only [Expr.matchAgainst, Expr.matchFrom, h]
    rfl
  | @transposeMatMul a b h =>
    refine exists_ruleMatch 10 [("B", b), ("A", a)] rfl ?_ rfl
    simp only [Expr.matchAgainst, Expr.matchFrom, h]
    rfl
  | @transposeAdd a b h =>
    refine exists_ruleMatch 11 [("B", b), ("A", a)] rfl ?_ rfl
    simp only [Expr.matchAgainst, Expr.matchFrom, h]
    rfl
  | @transposeSub a b h =>
    refine exists_ruleMatch 12 [("B", b), ("A", a)] rfl ?_ rfl
    simp only [Expr.matchAgainst, Expr.matchFrom, h]
    rfl
  | @transposeScale s a h =>
    refine exists_ruleMatch 13 [("A", a), ("s", s)] rfl ?_ rfl
    simp only [Expr.matchAgainst, Expr.matchFrom, h]
    rfl
  | @traceScale s a h =>
    refine exists_ruleMatch 14 [("A", a), ("s", s)] rfl ?_ rfl
    simp only [Expr.matchAgainst, Expr.matchFrom, h]
    rfl

/-- The matches at a node are its steps. -/
theorem isolatingStep_iff {e o : Expr S} :
    IsolatingStep e o ↔ ∃ m ∈ ruleMatches e isolating, m.output = o := by
  refine ⟨exists_mem_of_isolatingStep, ?_⟩
  rintro ⟨m, hm, rfl⟩
  obtain ⟨hr, hmatch⟩ := mem_ruleMatches hm
  rw [m.output_eq]
  exact isolatingStep_of_match hr hmatch

theorem isolatingStep_of_choose {seen : List (Expr S)} {previous : Option (Expr S)} {e : Expr S}
    {m : RuleMatch S} (h : Canonical.choose isolating seen previous e = some m) :
    IsolatingStep e m.output :=
  isolatingStep_iff.2 ⟨m, (Canonical.mem_of_choose h).1, rfl⟩

/-- Where no rule is chosen, every step leads back to an expression seen before. -/
theorem isSeen_of_choose_eq_none {seen : List (Expr S)} {previous : Option (Expr S)}
    {e o : Expr S} (h : Canonical.choose isolating seen previous e = none)
    (hs : IsolatingStep e o) : o = e ∨ o ∈ seen := by
  obtain ⟨m, hm, rfl⟩ := exists_mem_of_isolatingStep hs
  exact Canonical.eq_or_mem_of_choose_eq_none h hm

end TraceCalculus
