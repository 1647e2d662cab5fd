import RuleLogic.Proofs.Ownership

/-! The engine that a configuration makes. Operators come in the order of their names and patterns
in their own, and the first that is refused is the fault. If none is, every operator has the token
it was given, or its own, and a token stands for the last operator that it was given to. -/
namespace RuleLogic

theorem mapM_cases {α β ε : Type} (f : α → Except ε β) (items : List α) :
    (∃ results, items.mapM f = .ok results ∧
      List.Forall₂ (fun x y => f x = .ok y) items results) ∨
    ∃ before x after e, items = before ++ x :: after ∧ (∀ y ∈ before, ∃ z, f y = .ok z) ∧
      f x = .error e ∧ items.mapM f = .error e := by
  induction items with
  | nil => exact .inl ⟨[], rfl, .nil⟩
  | cons x rest ih =>
    rw [List.mapM_cons]
    cases hx : f x with
    | error e => exact .inr ⟨[], x, rest, e, rfl, by simp, hx, rfl⟩
    | ok y =>
      rcases ih with ⟨results, hrest, hall⟩ | ⟨before, z, after, e, rfl, hbefore, hz, hrest⟩
      · rw [hrest]
        exact .inl ⟨y :: results, rfl, .cons hx hall⟩
      · rw [hrest]
        have hread := List.forall_mem_cons.2 ⟨⟨y, hx⟩, hbefore⟩
        exact .inr ⟨x :: before, z, after, e, rfl, hread, hz, rfl⟩

namespace Operator

theorem ofName?_name : ∀ op : Operator, ofName? op.name = some op := forall_iff.2 (by decide)

theorem name_inj {op other : Operator} (h : op.name = other.name) : op = other := by
  have hop := ofName?_name op
  rw [h, ofName?_name] at hop
  exact (Option.some.inj hop).symm

theorem ofName?_eq_some_iff {name : String} {op : Operator} :
    ofName? name = some op ↔ op.name = name := by
  constructor
  · intro h
    simpa using List.find?_some h
  · rintro rfl
    exact ofName?_name op

end Operator

namespace Config

def operatorNamed (e : String × String) : Except ConfigFault (Operator × String) :=
  match Operator.ofName? e.1 with
  | some op => .ok (op, e.2)
  | none => .error (.unknownOperator e.1)

def compiled (compile : PatternCompiler) (source : String) : Except ConfigFault (String → Bool) :=
  (compile source).mapError fun reason => .invalidPattern source reason

theorem renameAll_eq (t : TokenTable) (entries : List (String × String)) :
    renameAll t entries =
      (List.foldl (fun t e => t.rename e.1 e.2) t) <$> entries.mapM operatorNamed := by
  induction entries generalizing t with
  | nil => rfl
  | cons e rest ih =>
    rw [renameAll, List.mapM_cons, operatorNamed]
    cases Operator.ofName? e.1 with
    | none => rfl
    | some op =>
      dsimp only
      rw [ih]
      cases rest.mapM operatorNamed <;> rfl

theorem compileAll_eq (compile : PatternCompiler) (sources : List String) :
    compileAll compile sources = sources.mapM (compiled compile) := by
  induction sources with
  | nil => rfl
  | cons source rest ih =>
    rw [compileAll, List.mapM_cons, compiled, ih]
    cases compile source <;> rfl

theorem options_eq (compile : PatternCompiler) (c : Config) :
    c.options compile = do
      let history ← c.operators.mapM operatorNamed
      let patterns ← c.ignoredPatterns.mapM (compiled compile)
      return ⟨.renamed history, c.affix.format, ⟨c.ignoredPaths, patterns⟩, c.escape,
        c.maxDepth⟩ := by
  rw [options, renameAll_eq, compileAll_eq]
  cases c.operators.mapM operatorNamed <;> rfl

def given? (c : Config) (op : Operator) : Option String := c.operators.lookup op.name

def Known (c : Config) : Prop :=
  ∀ name ∈ Entries.names c.operators, ∃ op : Operator, op.name = name

/-- The least of the configured names that no operator has. -/
structure LeastUnknown (c : Config) (name : String) : Prop where
  configured : name ∈ Entries.names c.operators
  unknown : ∀ op : Operator, op.name ≠ name
  least : ∀ other ∈ Entries.names c.operators, (∀ op : Operator, op.name ≠ other) → name ≤ other

def FirstInvalid (compile : PatternCompiler) (c : Config) (source : String)
    (reason : Option String) : Prop :=
  ∃ before after, c.ignoredPatterns = before ++ source :: after ∧
    (∀ p ∈ before, ∃ accepts, compile p = .ok accepts) ∧ compile source = .error reason

/-- The operator that a token stands for: of those that were given it the one with the greatest
name, and if there is none the one that has it on its own and was given no other. -/
inductive Owner (c : Config) (token : String) (op : Operator) : Prop
  | given : c.given? op = some token →
      (∀ other, c.given? other = some token → other.name ≤ op.name) → Owner c token op
  | own : (∀ other, c.given? other ≠ some token) → c.given? op = none →
      op.defaultToken = token → Owner c token op

/-- The table of tokens that a configuration describes. -/
structure Tokens (c : Config) (t : TokenTable) : Prop where
  token : ∀ op, t.token op = (c.given? op).getD op.defaultToken
  lookup_token : ∀ op, ∃ owner, c.Owner (t.token op) owner ∧ t.lookup (t.token op) = some owner
  lookup_other : ∀ s, (∀ op, t.token op ≠ s) → t.lookup s = none

theorem operatorNamed_eq_ok_iff {e : String × String} {r : Operator × String} :
    operatorNamed e = .ok r ↔ e = (r.1.name, r.2) := by
  obtain ⟨name, token⟩ := e
  obtain ⟨op, token'⟩ := r
  rw [operatorNamed]
  cases hop : Operator.ofName? name with
  | none =>
    have hne : name ≠ op.name := by
      rintro rfl
      rw [Operator.ofName?_name] at hop
      contradiction
    simp [hne]
  | some op' =>
    obtain rfl := Operator.ofName?_eq_some_iff.1 hop
    have hiff : op'.name = op.name ↔ op' = op := ⟨Operator.name_inj, congrArg Operator.name⟩
    simp [hiff]

theorem operatorNamed_eq_error_iff {e : String × String} {f : ConfigFault} :
    operatorNamed e = .error f ↔ (∀ op : Operator, op.name ≠ e.1) ∧ f = .unknownOperator e.1 := by
  rw [operatorNamed]
  cases hop : Operator.ofName? e.1 with
  | none =>
    have hunknown : ∀ op : Operator, op.name ≠ e.1 := by
      intro op hname
      rw [← hname, Operator.ofName?_name] at hop
      contradiction
    simp [hunknown, eq_comm]
  | some op =>
    have hname : op.name = e.1 := Operator.ofName?_eq_some_iff.1 hop
    exact iff_of_false (by simp) fun h => h.1 op hname

variable {c : Config} {history : List (Operator × String)}

theorem given?_eq_some_iff {op : Operator} {token : String} :
    c.given? op = some token ↔ (op.name, token) ∈ c.operators := by
  have hnodup : (Entries.names c.operators).Nodup :=
    List.pairwise_map.2 (c.sorted.imp fun hlt => Std.ne_of_lt hlt)
  exact ⟨Entries.mem_of_lookup, fun h => Entries.lookup_of_mem hnodup h⟩

/-- The history of renames that a configuration stands for. -/
def Renames (c : Config) (history : List (Operator × String)) : Prop :=
  c.operators = history.map fun r => (r.1.name, r.2)

theorem renames_of_forall₂
    (h : List.Forall₂ (fun e r => operatorNamed e = .ok r) c.operators history) :
    c.Renames history := by
  simp only [operatorNamed_eq_ok_iff] at h
  have heq : List.Forall₂ (· = ·) c.operators (history.map fun r => (r.1.name, r.2)) :=
    List.forall₂_map_right_iff.2 h
  rwa [List.forall₂_eq_eq_eq] at heq

theorem Renames.mem_iff (h : c.Renames history) {op : Operator} {token : String} :
    (op, token) ∈ history ↔ c.given? op = some token := by
  rw [given?_eq_some_iff, h, List.mem_map]
  constructor
  · exact fun hmem => ⟨_, hmem, rfl⟩
  · rintro ⟨⟨op', token'⟩, hmem, heq⟩
    obtain ⟨hname, rfl⟩ := Prod.mk.inj heq
    exact Operator.name_inj hname ▸ hmem

theorem Renames.given_of_find? (h : c.Renames history) {p : Operator × String → Bool}
    {op : Operator} {token : String} (hfind : history.reverse.find? p = some (op, token)) :
    c.given? op = some token :=
  h.mem_iff.1 (List.mem_reverse.1 (List.mem_of_find?_eq_some hfind))

theorem Renames.not_of_find? (h : c.Renames history) {p : Operator × String → Bool}
    (hfind : history.reverse.find? p = none) {op : Operator} {token : String}
    (hgiven : c.given? op = some token) : ¬p (op, token) :=
  List.find?_eq_none.1 hfind _ (List.mem_reverse.2 (h.mem_iff.2 hgiven))

theorem Renames.sorted (h : c.Renames history) :
    history.Pairwise fun a b => a.1.name < b.1.name := by
  have hsorted := c.sorted
  rwa [h, List.pairwise_map] at hsorted

theorem Renames.token (h : c.Renames history) (op : Operator) :
    (TokenTable.renamed history).token op = (c.given? op).getD op.defaultToken := by
  rw [TokenTable.token_renamed]
  cases hfind : history.reverse.find? (·.1 = op) with
  | some r =>
    obtain ⟨op', token⟩ := r
    obtain rfl : op' = op := by simpa using List.find?_some hfind
    rw [h.given_of_find? hfind]
    rfl
  | none =>
    cases hgiven : c.given? op with
    | none => rfl
    | some token => exact absurd (decide_eq_true rfl) (h.not_of_find? hfind hgiven)

theorem Renames.le_of_find? (h : c.Renames history) {token : String} {r : Operator × String}
    (hfind : history.reverse.find? (·.2 = token) = some r) {other : Operator}
    (hother : c.given? other = some token) : other.name ≤ r.1.name := by
  obtain ⟨-, after, before, hsplit, hafter⟩ := List.find?_eq_some_iff_append.1 hfind
  have hsorted := List.pairwise_reverse.2 h.sorted
  have hmem := List.mem_reverse.2 (h.mem_iff.2 hother)
  rw [hsplit] at hsorted hmem
  rcases List.mem_append.1 hmem with hmem | hmem
  · simpa using hafter _ hmem
  · rcases List.mem_cons.1 hmem with rfl | hmem
    · exact String.le_refl _
    · have hlt := List.rel_of_pairwise_cons (List.pairwise_append.1 hsorted).2.1 hmem
      exact Std.le_of_lt hlt

theorem Renames.owner_of_find? (h : c.Renames history) {op : Operator} {token token' : String}
    (hfind : history.reverse.find? (·.2 = token) = some (op, token')) :
    c.Owner token op ∧ (TokenTable.renamed history).token op = token := by
  obtain rfl : token' = token := by simpa using List.find?_some hfind
  have hgiven := h.given_of_find? hfind
  refine ⟨.given hgiven fun other hother => h.le_of_find? hfind hother, ?_⟩
  rw [h.token, hgiven]
  rfl

theorem Renames.owner_of_token (h : c.Renames history) {op : Operator} {token : String}
    (hfind : history.reverse.find? (·.2 = token) = none)
    (htoken : (TokenTable.renamed history).token op = token) :
    c.Owner token op ∧ op.defaultToken = token := by
  have hnone : ∀ other, c.given? other ≠ some token := fun other hother =>
    absurd (decide_eq_true rfl) (h.not_of_find? hfind hother)
  rw [h.token] at htoken
  cases hgiven : c.given? op with
  | some token' =>
    rw [hgiven] at htoken
    exact absurd (htoken ▸ hgiven) (hnone op)
  | none =>
    rw [hgiven] at htoken
    exact ⟨.own hnone hgiven htoken, htoken⟩

theorem Renames.exists_owner (h : c.Renames history) (op : Operator) :
    ∃ owner, c.Owner ((TokenTable.renamed history).token op) owner ∧
      TokenTable.givenLast? history ((TokenTable.renamed history).token op) = some owner ∧
      (TokenTable.renamed history).token owner = (TokenTable.renamed history).token op := by
  generalize htoken : (TokenTable.renamed history).token op = token
  rw [TokenTable.givenLast?]
  cases hfind : history.reverse.find? (·.2 = token) with
  | some r =>
    obtain ⟨howner, hhas⟩ := h.owner_of_find? hfind
    exact ⟨r.1, howner, rfl, hhas⟩
  | none =>
    obtain ⟨howner, hdefault⟩ := h.owner_of_token hfind htoken
    exact ⟨op, howner, Operator.find?_defaultToken_eq_some_iff.2 hdefault, htoken⟩

theorem Renames.tokens (h : c.Renames history) : c.Tokens (.renamed history) where
  token := h.token
  lookup_token op := by
    obtain ⟨owner, howner, hgiven, htoken⟩ := h.exists_owner op
    exact ⟨owner, howner, TokenTable.lookup_renamed_eq_some_iff.2 ⟨hgiven, htoken⟩⟩
  lookup_other s hs := by
    refine Option.eq_none_iff_forall_ne_some.2 fun op hlookup => ?_
    exact hs op (TokenTable.exact_renamed history s op hlookup)

theorem known_of_renames (h : c.Renames history) : c.Known := by
  intro name hname
  rw [Entries.names, h, List.map_map, List.mem_map] at hname
  obtain ⟨r, -, rfl⟩ := hname
  exact ⟨r.1, rfl⟩

theorem leastUnknown_of_split {before after : List (String × String)} {e : String × String}
    (hsplit : c.operators = before ++ e :: after)
    (hbefore : ∀ x ∈ before, ∃ r, operatorNamed x = .ok r)
    (hunknown : ∀ op : Operator, op.name ≠ e.1) : c.LeastUnknown e.1 := by
  have hsorted := c.sorted
  rw [hsplit] at hsorted
  refine ⟨?_, hunknown, fun other hother hno => ?_⟩
  · rw [hsplit]
    exact List.mem_map_of_mem (List.mem_append_right _ (List.mem_cons_self ..))
  · -- the names before are known, and those after are greater
    rw [hsplit] at hother
    obtain ⟨x, hx, rfl⟩ := List.mem_map.1 hother
    rcases List.mem_append.1 hx with hx | hx
    · obtain ⟨r, hr⟩ := hbefore x hx
      exact absurd (congrArg Prod.fst (operatorNamed_eq_ok_iff.1 hr)).symm (hno r.1)
    · rcases List.mem_cons.1 hx with rfl | hx
      · exact String.le_refl _
      · have hlt := List.rel_of_pairwise_cons (List.pairwise_append.1 hsorted).2.1 hx
        exact Std.le_of_lt hlt

variable {compile : PatternCompiler} {source : String}

theorem compiled_eq_error_iff {f : ConfigFault} :
    compiled compile source = .error f ↔
      ∃ reason, compile source = .error reason ∧ f = .invalidPattern source reason := by
  rw [compiled]
  cases compile source <;> simp [Except.mapError, eq_comm]

theorem message_invalidPattern (source : String) (reason : Option String) :
    (ConfigFault.invalidPattern source reason).message =
      "invalid ignored path pattern \"" ++ source ++ "\"" ++ reason.elim "" (": " ++ ·) := by
  cases reason with
  | none => exact String.append_empty.symm
  | some reason =>
    have hcolon : "\": " = "\"" ++ ": " := by decide
    change "invalid ignored path pattern \"" ++ source ++ "\": " ++ reason =
      "invalid ignored path pattern \"" ++ source ++ "\"" ++ (": " ++ reason)
    rw [hcolon, ← String.append_assoc, ← String.append_assoc]

theorem exists_of_compiled {accepts : String → Bool} (h : compiled compile source = .ok accepts) :
    ∃ accepts, compile source = .ok accepts := by
  rw [compiled] at h
  cases hc : compile source with
  | ok accepts => exact ⟨accepts, rfl⟩
  | error reason =>
    rw [hc] at h
    contradiction

end Config

namespace Engine

/-- What becomes of a configuration: one of two faults, each with its code and message, or an engine
with the tokens that it describes. -/
inductive Outcome (compile : PatternCompiler) (c : Config) : Except Failure Engine → Prop
  | unknownOperator {name : String} {f : Failure} : c.LeastUnknown name →
      f = .configuration (.unknownOperator name) →
      f.diagnostic = ⟨.configuration, ⟨200⟩, "unknown operator \"" ++ name ++ "\"", none⟩ →
      Outcome compile c (.error f)
  | invalidPattern {source : String} {reason : Option String} {f : Failure} : c.Known →
      c.FirstInvalid compile source reason →
      f = .configuration (.invalidPattern source reason) →
      f.diagnostic = ⟨.configuration, ⟨201⟩, "invalid ignored path pattern \"" ++ source ++ "\"" ++
        reason.elim "" (": " ++ ·), none⟩ →
      Outcome compile c (.error f)
  | engine {engine : Engine} : c.Known →
      (∀ p ∈ c.ignoredPatterns, ∃ accepts, compile p = .ok accepts) →
      c.Tokens engine.options.operators → Outcome compile c (.ok engine)

open Config in
/-- The least unknown name is refused, then the first pattern that is not valid; any other
configuration makes an engine with the tokens that it describes. -/
theorem ofConfigBy_outcome (compile : PatternCompiler) (c : Config) :
    Outcome compile c (ofConfigBy compile c) := by
  rw [ofConfigBy, options_eq]
  rcases mapM_cases operatorNamed c.operators with
    ⟨history, hnamed, hhistory⟩ | ⟨before, e, after, f, hsplit, hbefore, hf, hnamed⟩
  · have hrenames := renames_of_forall₂ hhistory
    rcases mapM_cases (compiled compile) c.ignoredPatterns with
      ⟨patterns, hcompiled, hpatterns⟩ | ⟨before, source, after, f, hsplit, hbefore, hf, hcompiled⟩
    · rw [hnamed, hcompiled]
      refine .engine (known_of_renames hrenames) ?_ hrenames.tokens
      exact forall_mem_of_forall₂ (hpatterns.flip.imp fun _ _ h => exists_of_compiled h)
    · obtain ⟨reason, hreason, rfl⟩ := compiled_eq_error_iff.1 hf
      rw [hnamed, hcompiled]
      have hvalid : ∀ p ∈ before, ∃ accepts, compile p = .ok accepts := by
        intro p hp
        obtain ⟨accepts, haccepts⟩ := hbefore p hp
        exact exists_of_compiled haccepts
      refine .invalidPattern (known_of_renames hrenames) ⟨before, after, hsplit, hvalid, hreason⟩
        rfl ?_
      rw [← message_invalidPattern]
      rfl
  · obtain ⟨hunknown, rfl⟩ := operatorNamed_eq_error_iff.1 hf
    rw [hnamed]
    exact .unknownOperator (leastUnknown_of_split hsplit hbefore hunknown) rfl rfl

end Engine

end RuleLogic
