import RuleLogic.Proofs.Refinement

/-! Where the faults of evaluating come from. A reference fails on its path or its cast, a list as
one of its parts does, and a connective on an operand that is no truth value besides. -/
namespace RuleLogic

variable {limit level : Nat} {data : Context}

theorem map_eq_error_iff {ε α β : Type} {f : α → β} {x : Except ε α} {fault : ε} :
    f <$> x = .error fault ↔ x = .error fault := by
  cases x <;> simp [Functor.map, Except.map]

theorem Context.fault_of_resolveWithin {budget : Nat} {path : String} {fault : EvalFault}
    (h : data.resolveWithin budget path = .error fault) :
    ∃ p, fault = .unsettledPath maxSubstitutions p := by
  fun_induction resolveWithin data budget path with
  | case1 path hs => contradiction
  | case2 path segment hs => exact ⟨path, (Except.error.inj h).symm⟩
  | case3 path segment hs budget hg => contradiction
  | case4 path segment hs budget value hg ih => exact ih h

theorem Reference.fault_of_evaluate {r : Reference} {fault : EvalFault}
    (h : r.evaluate data = .error fault) :
    (∃ p, fault = .unsettledPath Context.maxSubstitutions p) ∨ ∃ e, fault = .conversion e := by
  unfold evaluate at h
  split at h
  · rename_i fault' hr
    cases h
    exact .inl (Context.fault_of_resolveWithin hr)
  · contradiction
  · split at h
    · contradiction
    · exact .inr ⟨_, (Except.error.inj h).symm⟩

namespace Expr

theorem exists_of_evaluateEach {es : List Expr} {fault : EvalFault}
    (h : evaluateEach limit data level es = .error fault) :
    ∃ e ∈ es, e.evaluateAt limit data level = .error fault := by
  induction es with
  | nil => contradiction
  | cons e rest ih =>
    rw [evaluateEach] at h
    cases he : e.evaluateAt limit data level with
    | error fault' =>
      rw [he] at h
      cases h
      exact ⟨e, List.mem_cons_self .., he⟩
    | ok v =>
      cases hr : evaluateEach limit data level rest with
      | error fault' =>
        rw [he, hr] at h
        cases h
        obtain ⟨e', he', hfault⟩ := ih hr
        exact ⟨e', List.mem_cons_of_mem _ he', hfault⟩
      | ok vs =>
        rw [he, hr] at h
        contradiction

theorem exists_of_evaluateLogical {op : LogicalOp} {seenTrue : Bool} {es : List Expr}
    {fault : EvalFault} (h : evaluateLogical limit data op seenTrue level es = .error fault) :
    fault = .notBoolean op ∨ ∃ e ∈ es, e.evaluateAt limit data level = .error fault := by
  induction es generalizing seenTrue with
  | nil => contradiction
  | cons e rest ih =>
    cases he : e.evaluateAt limit data level with
    | error fault' =>
      rw [evaluateLogical, he] at h
      cases h
      exact .inr ⟨e, List.mem_cons_self .., he⟩
    | ok v =>
      cases v with
      | boolean b =>
        rw [evaluateLogical_cons he] at h
        cases hd : op.decides? seenTrue b with
        | some result =>
          rw [hd] at h
          contradiction
        | none =>
          rw [hd] at h
          refine (ih h).imp_right ?_
          rintro ⟨e', he', hfault⟩
          exact ⟨e', List.mem_cons_of_mem _ he', hfault⟩
      | _ =>
        rw [evaluateLogical, he] at h
        cases h
        exact .inl rfl

end Expr

end RuleLogic
