import RuleLogic.Engine
import RuleLogic.Proofs.RoundTrip

/-! Tables of tokens that configurations make. Renaming one operator after the other, nothing but
its token ever stands for an operator, though a token that is given away no longer does. -/
namespace RuleLogic

namespace TokenTable

/-- Only its token stands for an operator. -/
def Exact (t : TokenTable) : Prop := ∀ s op, t.lookup s = some op → t.token op = s

theorem exact_default : default.Exact := fun _ _ h => (lookup_default_eq_some_iff.1 h).symm

theorem Exact.rename {t : TokenTable} (h : t.Exact) (op : Operator) (token : String) :
    (t.rename op token).Exact := by
  intro s o hs
  rw [lookup_rename] at hs
  rw [token_rename]
  by_cases htoken : s = token
  · rw [if_pos htoken, Option.some.injEq] at hs
    rw [if_pos hs.symm, htoken]
  · rw [if_neg htoken] at hs
    by_cases hold : s = t.token op ∧ t.lookup s = some op
    · rw [if_pos hold] at hs
      contradiction
    · rw [if_neg hold] at hs
      by_cases ho : o = op
      · subst ho
        exact absurd ⟨(h s o hs).symm, hs⟩ hold
      · rw [if_neg ho]
        exact h s o hs

end TokenTable

namespace Config

theorem exact_of_renameAll {t t' : TokenTable} {entries : List (String × String)} (ht : t.Exact)
    (h : renameAll t entries = .ok t') : t'.Exact := by
  induction entries generalizing t with
  | nil => exact Except.ok.inj h ▸ ht
  | cons e rest ih =>
    rw [renameAll] at h
    split at h
    · exact ih (ht.rename _ _) h
    · contradiction

theorem options_eq_ok_iff {compile : PatternCompiler} {config : Config} {o : Options} :
    config.options compile = .ok o ↔
      ∃ operators patterns, renameAll .default config.operators = .ok operators ∧
        compileAll compile config.ignoredPatterns = .ok patterns ∧
        o = ⟨operators, config.affix.format, ⟨config.ignoredPaths, patterns⟩, config.escape,
          config.maxDepth⟩ := by
  unfold options
  cases renameAll .default config.operators <;> cases compileAll compile config.ignoredPatterns <;>
    simp [bind, Except.bind, pure, Except.pure, eq_comm]

end Config

theorem Engine.options_of_ofConfigBy {compile : PatternCompiler} {config : Config}
    {engine : Engine} (h : ofConfigBy compile config = .ok engine) :
    config.options compile = .ok engine.options := by
  unfold ofConfigBy at h
  split at h
  · rename_i o ho
    exact Except.ok.inj h ▸ ho
  · contradiction

end RuleLogic
