import RuleLogic.Proofs.Extension
import RuleLogic.Proofs.Levels
import RuleLogic.Proofs.Rereading

/-! What simplifying reads of a context. A reference has one path that is looked up in the end,
which may be ignored, and the paths of its segments, which are looked up on the way and are not
compared with the ignored ones. -/
namespace RuleLogic

namespace Context

/-- The paths of the segments that are replaced in a path, in their order. -/
def embeddedWithin (data : Context) (budget : Nat) (path : String) : List String :=
  match Segment.innermost? path.toList with
  | none => []
  | some segment =>
    match budget with
    | 0 => []
    | budget + 1 =>
      segment.path ::
        match data.get? segment.path with
        | none => []
        | some value => data.embeddedWithin budget (segment.fill value)

def embedded (data : Context) (path : String) : List String :=
  data.embeddedWithin maxSubstitutions path

def AgreeAt (c d : Context) (path : String) : Prop := c.get? path = d.get? path

variable {c d : Context} {budget : Nat} {path : String}

theorem embeddedWithin_segment {segment : Segment}
    (h : Segment.innermost? path.toList = some segment) (c : Context) (budget : Nat) :
    c.embeddedWithin (budget + 1) path =
      segment.path ::
        match c.get? segment.path with
        | none => []
        | some value => c.embeddedWithin budget (segment.fill value) := by
  rw [embeddedWithin]
  cases hvalue : c.get? segment.path <;> simp only [h, hvalue]

/-- Look-ups go the same way where the contexts agree on all segments: they fail together, or they
come to one path, and to one value if the contexts agree there too. -/
theorem resolveWithin_agree (h : ∀ p ∈ c.embeddedWithin budget path, c.AgreeAt d p) :
    (∃ fault, c.resolveWithin budget path = .error fault ∧
        d.resolveWithin budget path = .error fault) ∨
      ∃ found v w, c.resolveWithin budget path = .ok ⟨found, v⟩ ∧
        d.resolveWithin budget path = .ok ⟨found, w⟩ ∧ (c.AgreeAt d found → v = w) := by
  induction budget generalizing path with
  | zero =>
    cases hs : Segment.innermost? path.toList with
    | none =>
      exact .inr ⟨path, _, _, resolveWithin_plain hs c _, resolveWithin_plain hs d _, id⟩
    | some segment => exact .inl ⟨_, resolveWithin_spent hs c, resolveWithin_spent hs d⟩
  | succ budget ih =>
    cases hs : Segment.innermost? path.toList with
    | none =>
      exact .inr ⟨path, _, _, resolveWithin_plain hs c _, resolveWithin_plain hs d _, id⟩
    | some segment =>
      rw [embeddedWithin_segment hs, List.forall_mem_cons] at h
      have hsegment : c.get? segment.path = d.get? segment.path := h.1
      rw [resolveWithin_segment hs, resolveWithin_segment hs, ← hsegment]
      cases hvalue : c.get? segment.path with
      | none => exact .inr ⟨path, none, none, rfl, rfl, fun _ => rfl⟩
      | some value =>
        -- Both fill the segment with this value, and go on with one path.
        rw [hvalue] at h
        exact ih h.2

end Context

namespace Reference

theorem settle?_agree {r : Reference} {c d : Context}
    (hembedded : ∀ p ∈ c.embedded r.path, c.AgreeAt d p)
    (hothers : ∀ p, r.isIgnored p = false → c.AgreeAt d p) : r.settle? c = r.settle? d := by
  unfold settle? Context.resolve
  obtain ⟨fault, hc, hd⟩ | ⟨found, v, w, hc, hd, hsame⟩ := Context.resolveWithin_agree hembedded
  · simp only [hc, hd]
  · simp only [hc, hd]
    cases hi : r.isIgnored found with
    | true => rfl
    | false => rw [hsame (hothers found hi)]

end Reference

namespace Expr

variable {c d : Context}

/-- Whether simplifying looks a path up for a segment of a reference. -/
def Embeds (c : Context) (e : Expr) (path : String) : Prop :=
  ∃ r, reference r ∈ e.parts ∧ path ∈ c.embedded r.path

def SettledAlike (c d : Context) : Expr → Prop
  | reference r => r.settle? c = r.settle? d
  | _ => True

theorem simplifyAt_agree {e : Expr} (h : e.All (SettledAlike c d)) (limit level : Nat) :
    e.simplifyAt limit c level = e.simplifyAt limit d level := by
  induction e generalizing level with
  | literal l => simp only [simplifyAt]
  | reference r =>
    have hr : r.settle? c = r.settle? d := all_reference.1 h
    simp only [simplifyAt, hr]
  | collection items o ih =>
    have hitems := settleEach_congr fun e he => ih e he ((all_collection.1 h).2 e he) (level + 1)
    simp only [simplifyAt, hitems]
  | comparison op es o ih =>
    have hall : (apply o (.comparison op) es).All (SettledAlike c d) := h
    have hes := settleEach_congr fun e he => ih e he ((all_apply.1 hall).2 e he) (level + 1)
    simp only [simplifyAt, hes]
  | logical op es o ih =>
    have hall : (apply o (.logical op) es).All (SettledAlike c d) := h
    have hes := map_operandAt_congr fun e he => ih e he ((all_apply.1 hall).2 e he) (level + 1)
    simp only [simplifyAt, simplifyLogical_eq, hes]

def RefersUnder (o : Options) : Expr → Prop
  | reference r => r.options = o
  | _ => True

theorem refersUnder_apply {o o' : Options} (op : Operator) {operands : List Expr} :
    RefersUnder o (apply o' op operands) := by
  cases op <;> trivial

end Expr

open RuleLogic.Expr

theorem Built.refersUnder {o : Options} {n : Expr} (h : Built o n) : n.All (RefersUnder o) :=
  all_of_built h (fun _ => trivial) (fun _ hr => hr) (fun _ _ => trivial) fun op _ _ =>
    refersUnder_apply op

namespace Engine

/-- Simplifying reads no ignored paths but those that it looks up for the segments of references:
contexts that agree on these and on all paths that are not ignored make no difference. -/
theorem simplify_agree {engine : Engine} {x : Json} {n : Expr} (h : engine.read x = .ok n)
    {c d : Context} (hothers : ∀ p, engine.options.ignored.contains p = false → c.AgreeAt d p)
    (hembedded : ∀ p, n.Embeds c p → c.AgreeAt d p) (limit : Nat) :
    n.simplify limit c = n.simplify limit d := by
  have hbuilt := Options.built_of_readAt (read_eq_ok_iff.1 h)
  refine simplifyAt_agree (fun p hp => ?_) limit 0
  cases p with
  | reference r =>
    have hoptions : r.options = engine.options := hbuilt.refersUnder _ hp
    refine Reference.settle?_agree (fun q hq => hembedded q ⟨r, hp, hq⟩) fun q hq => hothers q ?_
    rwa [Reference.isIgnored, hoptions] at hq
  | _ => trivial

def discreet : Engine := ⟨{ Options.default with ignored := ⟨["secret"], []⟩ }⟩

def keeping (secret : String) : Context :=
  (((Context.empty.insert "a.x" (.integer 1)).insert "a.y" (.integer 2)).insert "key"
    (.string "x")).insert "secret" (.string secret)

theorem keeping_agree (secret other : String) {path : String}
    (h : discreet.options.ignored.contains path = false) :
    (keeping secret).AgreeAt (keeping other) path := by
  have hne : path ≠ "secret" := by
    rintro rfl
    contradiction
  simp [Context.AgreeAt, keeping, hne]

def discreetLookup (path : String) : Reference := ⟨path, path, .undefined, discreet.options⟩

/-- `["AND", ["==", "$secret", "x"], ["==", "$a.{key}", 1]]` -/
def keyed : Json :=
  .array
    [.string "AND", .array [.string "==", .string "$secret", .string "x"],
      .array [.string "==", .string "$a.\x7bkey\x7d", .number (.integer 1)]]

def keyedRule : Expr :=
  .logical .and
    [.comparison .equal [.reference (discreetLookup "secret"), .literal (.string "x")]
        discreet.options,
      .comparison .equal [.reference (discreetLookup "a.\x7bkey\x7d"), .literal (.integer 1)]
        discreet.options]
    discreet.options

theorem embeds_keyedRule {secret path : String} (h : keyedRule.Embeds (keeping secret) path) :
    path = "key" := by
  obtain ⟨r, hr, hpath⟩ := h
  obtain rfl | rfl : r = discreetLookup "secret" ∨ r = discreetLookup "a.\x7bkey\x7d" := by
    simpa [keyedRule, parts, partsEach] using hr
  · contradiction
  · exact List.mem_singleton.1 hpath

theorem simplify_agree_keyedRule :
    discreet.read keyed = .ok keyedRule ∧
      keyedRule.simplify 128 (keeping "x") = keyedRule.simplify 128 (keeping "y") := by
  have hread : discreet.read keyed = .ok keyedRule := rfl
  refine ⟨hread, simplify_agree hread (fun p => keeping_agree "x" "y") (fun p hp => ?_) 128⟩
  obtain rfl := embeds_keyedRule hp
  rfl

theorem simplify_discreetLookup :
    discreet.read (.string "$a.\x7bsecret\x7d") =
        .ok (.reference (discreetLookup "a.\x7bsecret\x7d")) ∧
      (∀ p, discreet.options.ignored.contains p = false →
        (keeping "x").AgreeAt (keeping "y") p) ∧
      (Expr.reference (discreetLookup "a.\x7bsecret\x7d")).simplify 128 (keeping "x") ≠
        (Expr.reference (discreetLookup "a.\x7bsecret\x7d")).simplify 128 (keeping "y") := by
  have hx : (Expr.reference (discreetLookup "a.\x7bsecret\x7d")).simplify 128 (keeping "x") =
      .value (.integer 1) := rfl
  have hy : (Expr.reference (discreetLookup "a.\x7bsecret\x7d")).simplify 128 (keeping "y") =
      .value (.integer 2) := rfl
  refine ⟨rfl, fun p => keeping_agree "x" "y", ?_⟩
  rw [hx, hy]
  simp

end Engine

end RuleLogic
