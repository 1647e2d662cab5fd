import RuleLogic.Proofs.Rereading
import RuleLogic.Proofs.Tokens
import Mathlib.Data.Finset.Max

/-! Tokens after any number of renames. A token stands for the operator that was given it last, as
long as this one keeps it; once it is given up, operators that took it before have it for writing
only. What is read as an expression is written under the head that it was read from. -/
namespace RuleLogic

namespace Operator

theorem defaultToken_inj {op other : Operator} (h : op.defaultToken = other.defaultToken) :
    op = other := by
  have hop := TokenTable.lookup_defaultToken op
  rw [h, TokenTable.lookup_defaultToken] at hop
  exact (Option.some.inj hop).symm

theorem find?_defaultToken_eq_some_iff {token : String} {op : Operator} :
    all.find? (·.defaultToken = token) = some op ↔ op.defaultToken = token := by
  have hfound : ∀ op : Operator, all.find? (·.defaultToken = op.defaultToken) = some op :=
    forall_iff.2 (by decide)
  constructor
  · intro h
    simpa using List.find?_some h
  · rintro rfl
    exact hfound op

end Operator

namespace TokenTable

def renamed (history : List (Operator × String)) : TokenTable :=
  history.foldl (fun t e => t.rename e.1 e.2) default

/-- Which of the renames was the last of an operator, counted from one; zero if there was none. -/
def turn (history : List (Operator × String)) (op : Operator) : Nat :=
  (history.reverse.dropWhile (·.1 ≠ op)).length

def givenLast? (history : List (Operator × String)) (token : String) : Option Operator :=
  ((history.reverse.find? (·.2 = token)).map Prod.fst).or
    (Operator.all.find? (·.defaultToken = token))

/-- Of all operators that have a token in the end, the one that was renamed last. -/
structure LastHolder (history : List (Operator × String)) (token : String) (op : Operator) :
    Prop where
  holds : (renamed history).token op = token
  last : ∀ other, (renamed history).token other = token → other ≠ op →
    turn history other < turn history op

variable {history : List (Operator × String)} {op : Operator} {token : String}

theorem renamed_concat (history : List (Operator × String)) (e : Operator × String) :
    renamed (history ++ [e]) = (renamed history).rename e.1 e.2 := by
  rw [renamed, List.foldl_concat, renamed]

@[simp]
theorem token_renamed_concat (history : List (Operator × String)) (e : Operator × String)
    (op : Operator) :
    (renamed (history ++ [e])).token op =
      if op = e.1 then e.2 else (renamed history).token op := by
  rw [renamed_concat, token_rename]

@[simp]
theorem turn_concat (history : List (Operator × String)) (e : Operator × String) (op : Operator) :
    turn (history ++ [e]) op = if op = e.1 then history.length + 1 else turn history op := by
  by_cases h : op = e.1
  · simp [turn, h]
  · simp [turn, h, Ne.symm h]

@[simp]
theorem givenLast?_concat (history : List (Operator × String)) (e : Operator × String)
    (token : String) :
    givenLast? (history ++ [e]) token =
      if token = e.2 then some e.1 else givenLast? history token := by
  by_cases h : token = e.2
  · simp [givenLast?, h]
  · simp [givenLast?, h, Ne.symm h]

theorem exact_renamed (history : List (Operator × String)) : (renamed history).Exact := by
  induction history using List.reverseRecOn with
  | nil => exact exact_default
  | append_singleton history e ih => exact renamed_concat history e ▸ ih.rename e.1 e.2

theorem Exact.lookup_rename_eq_some_iff {t : TokenTable} (h : t.Exact) (e : Operator × String) :
    (t.rename e.1 e.2).lookup token = some op ↔
      if token = e.2 then op = e.1 else op ≠ e.1 ∧ t.lookup token = some op := by
  rw [lookup_rename]
  by_cases htoken : token = e.2
  · rw [if_pos htoken, if_pos htoken, Option.some.injEq, eq_comm]
  rw [if_neg htoken, if_neg htoken]
  by_cases hgiven : token = t.token e.1 ∧ t.lookup token = some e.1
  · rw [if_pos hgiven, hgiven.2, Option.some.injEq]
    exact iff_of_false (by simp) fun hop => hop.1 hop.2.symm
  · rw [if_neg hgiven]
    refine ⟨fun hop => ⟨?_, hop⟩, And.right⟩
    rintro rfl
    exact hgiven ⟨(h token _ hop).symm, hop⟩

/-- A token stands for the operator that was given it last and has not given it up. -/
theorem lookup_renamed_eq_some_iff :
    (renamed history).lookup token = some op ↔
      givenLast? history token = some op ∧ (renamed history).token op = token := by
  induction history using List.reverseRecOn with
  | nil =>
    have hgiven : givenLast? [] token = some op ↔ op.defaultToken = token :=
      Operator.find?_defaultToken_eq_some_iff
    rw [hgiven]
    exact lookup_default_eq_some_iff.trans ⟨fun h => ⟨h.symm, h.symm⟩, fun h => h.1.symm⟩
  | append_singleton history e ih =>
    rw [renamed_concat, (exact_renamed history).lookup_rename_eq_some_iff, ih, token_rename,
      givenLast?_concat]
    by_cases htoken : token = e.2
    · rw [if_pos htoken, if_pos htoken]
      constructor
      · rintro rfl
        exact ⟨rfl, by rw [if_pos rfl, htoken]⟩
      · exact fun h => (Option.some.inj h.1).symm
    · rw [if_neg htoken, if_neg htoken]
      by_cases hop : op = e.1
      · rw [if_pos hop]
        exact iff_of_false (fun h => h.1 hop) fun h => htoken h.2.symm
      · rw [if_neg hop]
        exact and_iff_right hop

theorem token_renamed (history : List (Operator × String)) (op : Operator) :
    (renamed history).token op =
      ((history.reverse.find? (·.1 = op)).map Prod.snd).getD op.defaultToken := by
  induction history using List.reverseRecOn with
  | nil => rfl
  | append_singleton history e ih =>
    rw [token_renamed_concat]
    by_cases h : op = e.1
    · simp [h]
    · simp [h, Ne.symm h, ih]

theorem turn_le_length (history : List (Operator × String)) (op : Operator) :
    turn history op ≤ history.length := by
  refine Nat.le_trans (List.dropWhile_sublist _).length_le ?_
  exact Nat.le_of_eq List.length_reverse

theorem token_of_turn_eq_zero (h : turn history op = 0) :
    (renamed history).token op = op.defaultToken := by
  induction history using List.reverseRecOn with
  | nil => rfl
  | append_singleton history e ih =>
    rw [turn_concat] at h
    rw [token_renamed_concat]
    by_cases hop : op = e.1
    · simp [hop] at h
    · rw [if_neg hop] at h ⊢
      exact ih h

theorem eq_of_turn_eq {other : Operator} (h : turn history op = turn history other)
    (hpos : 0 < turn history op) : op = other := by
  induction history using List.reverseRecOn with
  | nil => contradiction
  | append_singleton history e ih =>
    have hop := turn_le_length history op
    have hother := turn_le_length history other
    rw [turn_concat] at hpos
    rw [turn_concat, turn_concat] at h
    by_cases hop' : op = e.1 <;> by_cases hother' : other = e.1
    · rw [hop', hother']
    · rw [if_pos hop', if_neg hother'] at h
      omega
    · rw [if_neg hop', if_pos hother'] at h
      omega
    · rw [if_neg hop', if_neg hother'] at h
      rw [if_neg hop'] at hpos
      exact ih h hpos

theorem LastHolder.unique {other : Operator} (h : LastHolder history token op)
    (hother : LastHolder history token other) : other = op := by
  by_contra hne
  have hlt := h.last other hother.holds hne
  have hgt := hother.last op h.holds (Ne.symm hne)
  omega

theorem exists_lastHolder (h : (renamed history).token op = token) :
    ∃ owner, LastHolder history token owner := by
  let holders := Operator.all.toFinset.filter fun o => (renamed history).token o = token
  have hmem : ∀ {o}, o ∈ holders ↔ (renamed history).token o = token := by
    intro o
    simp [holders, o.mem_all]
  obtain ⟨owner, howner, hmax⟩ := holders.exists_max_image (turn history) ⟨op, hmem.2 h⟩
  refine ⟨owner, hmem.1 howner, fun other hother hne => ?_⟩
  -- two holders of one turn were both never renamed, and their own tokens differ
  refine Nat.lt_of_le_of_ne (hmax other (hmem.2 hother)) fun hturn => ?_
  rcases Nat.eq_zero_or_pos (turn history other) with hzero | hpos
  · have hdefault : other.defaultToken = owner.defaultToken := by
      rw [← token_of_turn_eq_zero hzero, ← token_of_turn_eq_zero (hturn ▸ hzero), hother,
        hmem.1 howner]
    exact hne (Operator.defaultToken_inj hdefault)
  · exact hne (eq_of_turn_eq hturn hpos)

theorem lastHolder_of_givenLast? (hgiven : givenLast? history token = some op)
    (h : (renamed history).token op = token) : LastHolder history token op := by
  refine ⟨h, ?_⟩
  induction history using List.reverseRecOn with
  | nil =>
    intro other hother hne
    exact absurd (Operator.defaultToken_inj (hother.trans h.symm)) hne
  | append_singleton history e ih =>
    intro other hother hne
    rw [givenLast?_concat] at hgiven
    rw [token_renamed_concat] at h hother
    rw [turn_concat, turn_concat]
    by_cases htoken : token = e.2
    · rw [if_pos htoken] at hgiven
      obtain rfl := Option.some.inj hgiven
      rw [if_neg hne, if_pos rfl]
      exact Nat.lt_succ_of_le (turn_le_length history other)
    · -- Whoever was renamed just now has another token.
      rw [if_neg htoken] at hgiven
      have hop : op ≠ e.1 := fun hop => htoken (by rw [← h, if_pos hop])
      have hother' : other ≠ e.1 := fun hop => htoken (by rw [← hother, if_pos hop])
      rw [if_neg hop] at h ⊢
      rw [if_neg hother'] at hother ⊢
      exact ih hgiven h other hother hne

/-- Among the operators with one token there is a last holder, and the token stands for it unless it
was given to another operator since, which gave it up; then it stands for none. -/
theorem lookup_token_renamed (history : List (Operator × String)) (op : Operator) :
    ∃ owner,
      (∀ o, LastHolder history ((renamed history).token op) o ↔ o = owner) ∧
      (renamed history).lookup ((renamed history).token op) =
        if givenLast? history ((renamed history).token op) = some owner then some owner
        else none := by
  obtain ⟨owner, howner⟩ : ∃ owner, LastHolder history ((renamed history).token op) owner :=
    exists_lastHolder rfl
  refine ⟨owner, fun o => ⟨howner.unique, fun ho => ho ▸ howner⟩, ?_⟩
  cases hlookup : (renamed history).lookup ((renamed history).token op) with
  | none =>
    rw [if_neg]
    intro hgiven
    rw [lookup_renamed_eq_some_iff.2 ⟨hgiven, howner.holds⟩] at hlookup
    contradiction
  | some o =>
    obtain ⟨hgiven, ho⟩ := lookup_renamed_eq_some_iff.1 hlookup
    obtain rfl := howner.unique (lastHolder_of_givenLast? hgiven ho)
    rw [if_pos hgiven]

def passedOn : List (Operator × String) :=
  [(.comparison .equal, "x"), (.comparison .greater, "x"), (.comparison .less, "x"),
    (.comparison .less, "y")]

theorem lookup_token_passedOn :
    (renamed passedOn).token (.comparison .equal) = "x" ∧
      LastHolder passedOn "x" (.comparison .greater) ∧
      (renamed passedOn).lookup "x" = none := by
  refine ⟨by decide, ⟨by decide, ?_⟩, by decide⟩
  exact Operator.forall_iff.2 (by decide)

end TokenTable

open RuleLogic.Expr TokenTable

namespace Engine

/-- Whatever the renames, nothing but its token stands for an operator, and so an expression is
written under the head that it was read from. -/
theorem toJson_head_of_read (history : List (Operator × String)) :
    (∀ s op, (renamed history).lookup s = some op → (renamed history).token op = s) ∧
      ∀ engine : Engine, engine.options.operators = renamed history →
        ∀ items o op operands, engine.read (.array items) = .ok (apply o op operands) →
          ∃ head rest written, items = head :: rest ∧
            (apply o op operands).toJson = .array (head :: written) := by
  refine ⟨exact_renamed history, fun engine hengine items o op operands h => ?_⟩
  have hread := read_eq_ok_iff.1 h
  cases items with
  | nil =>
    rw [Options.read, Options.readAt] at hread
    split at hread <;> contradiction
  | cons head rest =>
    obtain ⟨-, ⟨op', operands', hop, -, -, he⟩ | ⟨_, _, _, _, _, he⟩⟩ :=
      Options.readAt_array_eq_ok_iff.1 hread
    · obtain ⟨-, s, rfl, -, howned⟩ := Options.exists_of_headOf_operator hop
      have htoken : engine.options.operators.token op' = s := by
        rw [hengine] at howned ⊢
        exact exact_renamed history s op' howned
      exact ⟨.string s, rest, toJsons operands', rfl, by rw [he, toJson_apply, htoken]⟩
    · exact absurd he apply_ne_collection

def swapped : List (Operator × String) :=
  [(.logical .and, "&"), (.logical .or, "AND"), (.logical .and, "OR")]

def swappedEngine : Engine := ⟨{ Options.default with operators := renamed swapped }⟩

theorem toJson_head_of_read_swapped :
    swappedEngine.options.operators = renamed swapped ∧
      swappedEngine.read (.array [.string "AND", .boolean true, .boolean false]) =
        .ok (apply swappedEngine.options (.logical .or)
          [.literal (.boolean true), .literal (.boolean false)]) ∧
      ∃ head rest written,
        [Json.string "AND", .boolean true, .boolean false] = head :: rest ∧
          (apply swappedEngine.options (.logical .or)
            [.literal (.boolean true), .literal (.boolean false)]).toJson =
            .array (head :: written) := by
  have hread : swappedEngine.read (.array [.string "AND", .boolean true, .boolean false]) =
      .ok (apply swappedEngine.options (.logical .or)
        [.literal (.boolean true), .literal (.boolean false)]) := rfl
  exact ⟨rfl, hread, (toJson_head_of_read swapped).2 swappedEngine rfl _ _ _ _ hread⟩

end Engine

end RuleLogic
