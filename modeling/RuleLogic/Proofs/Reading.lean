import RuleLogic.Expr.Reader
import RuleLogic.Proofs.Document
import RuleLogic.Proofs.Structure
import Mathlib.Data.List.Forall2

/-! When a document is read. A list is an accepted expression or a collection of all its items, the
first one unescaped; `readAt_induction` goes through everything that was read by these two ways. -/
namespace RuleLogic

theorem forall_mem_of_forall₂ {α β : Type} {P : β → Prop} {xs : List α} {ys : List β}
    (h : List.Forall₂ (fun _ y => P y) xs ys) : ∀ y ∈ ys, P y := by
  induction h with
  | nil => simp
  | cons hy _ ih => exact List.forall_mem_cons.2 ⟨hy, ih⟩

theorem forall_mem_iff_of_forall₂ {α β : Type} {P : α → Prop} {Q : β → Prop} {xs : List α}
    {ys : List β} (h : List.Forall₂ (fun x y => P x ↔ Q y) xs ys) :
    (∀ x ∈ xs, P x) ↔ ∀ y ∈ ys, Q y := by
  induction h with
  | nil => simp
  | cons hxy _ ih => rw [List.forall_mem_cons, List.forall_mem_cons, hxy, ih]

def Head.source (head : Json) : Head → Json
  | escaped s => .string s
  | _ => head

namespace Options

variable {o : Options} {depth : Nat}

theorem gather_eq_ok_iff {surrounding : Option Surrounding} {first : Except ReadError Expr}
    {rest : Except ReadError (List Expr)} {e : Expr} :
    o.gather surrounding first rest = .ok e ↔
      ∃ f items, first = .ok f ∧ rest = .ok items ∧ e = .collection (f :: items) o := by
  unfold gather
  cases first <;> cases rest <;> cases surrounding <;>
    simp [bind, Except.bind, pure, Except.pure, eq_comm]

theorem readHead_eq (o : Options) (depth : Nat) (s : String) :
    o.readHead depth s = o.readAt depth (.string s) := by
  rw [readHead, readAt]

theorem lt_of_readAt {x : Json} {e : Expr} (h : o.readAt depth x = .ok e) :
    depth < o.maxDepth := by
  unfold readAt at h
  split at h
  · contradiction
  · rename_i hd
    exact Nat.not_le.1 hd

theorem readAt_boolean (h : depth < o.maxDepth) (b : Bool) :
    o.readAt depth (.boolean b) = .ok (.literal (.boolean b)) := by
  rw [readAt, if_neg (Nat.not_le.2 h)]

theorem readAt_number (h : depth < o.maxDepth) (n : Number) :
    o.readAt depth (.number n) = .ok (.literal (.ofNumber n)) := by
  rw [readAt, if_neg (Nat.not_le.2 h)]

theorem readAt_string (h : depth < o.maxDepth) (s : String) :
    o.readAt depth (.string s) = o.readString s := by
  rw [readAt, if_neg (Nat.not_le.2 h)]

theorem readAt_array_eq_ok_iff {head : Json} {rest : List Json} {e : Expr} :
    o.readAt depth (.array (head :: rest)) = .ok e ↔
      depth < o.maxDepth ∧
        ((∃ op operands, o.headOf head rest = .operator op ∧
          o.readEach (depth + 1) rest = .ok operands ∧ op.accepts operands.length = true ∧
          e = .apply o op operands) ∨
        ∃ first items,
          (∀ op, o.headOf head rest = .operator op → op.accepts items.length = false) ∧
          o.readAt (depth + 1) ((o.headOf head rest).source head) = .ok first ∧
          o.readEach (depth + 1) rest = .ok items ∧ e = .collection (first :: items) o) := by
  by_cases hd : o.maxDepth ≤ depth
  · rw [readAt, if_pos hd]
    simp [Nat.not_lt.2 hd]
  · rw [readAt, if_neg hd]
    simp only [Nat.not_le.1 hd, true_and]
    cases hh : o.headOf head rest with
    | operator op =>
      cases hr : o.readEach (depth + 1) rest with
      | error fault => simp
      | ok operands =>
        by_cases ha : op.accepts operands.length = true
        · simp only [if_pos ha]
          constructor
          · intro h
            exact .inl ⟨op, operands, rfl, rfl, ha, (Except.ok.inj h).symm⟩
          · rintro (⟨_, _, hop, hoperands, _, rfl⟩ | ⟨_, items, hn, _, hitems, _⟩)
            · cases hop
              cases hoperands
              rfl
            · cases hitems
              rw [hn op rfl] at ha
              contradiction
        · simp [ha, gather_eq_ok_iff, Head.source]
    | _ => simp [gather_eq_ok_iff, Head.source, readHead_eq]

theorem readEach_eq_ok_iff {xs : List Json} {es : List Expr} :
    o.readEach depth xs = .ok es ↔ List.Forall₂ (fun x e => o.readAt depth x = .ok e) xs es := by
  induction xs generalizing es with
  | nil => cases es <;> simp [readEach]
  | cons x rest ih =>
    rw [readEach]
    cases hx : o.readAt depth x with
    | error fault => cases es <;> simp [bind, Except.bind, hx]
    | ok e =>
      cases hr : o.readEach depth rest with
      | error fault => cases es <;> simp [bind, Except.bind, ← ih, hr]
      | ok items => cases es <;> simp [bind, Except.bind, pure, Except.pure, ← ih, hx, hr]

/-- Induction over what was read: a scalar, an expression, or a collection whose first item is read
from the source of its head. -/
@[elab_as_elim]
theorem readAt_induction {motive : Nat → Json → Expr → Prop}
    (boolean : ∀ depth b, depth < o.maxDepth → motive depth (.boolean b) (.literal (.boolean b)))
    (number : ∀ depth n, depth < o.maxDepth → motive depth (.number n) (.literal (.ofNumber n)))
    (string : ∀ depth s e, depth < o.maxDepth → o.readString s = .ok e →
      motive depth (.string s) e)
    (operator : ∀ depth head rest op operands, depth < o.maxDepth →
      o.headOf head rest = .operator op → op.accepts operands.length = true →
      List.Forall₂ (motive (depth + 1)) rest operands →
      motive depth (.array (head :: rest)) (.apply o op operands))
    (collection : ∀ depth head rest first items, depth < o.maxDepth →
      (∀ op, o.headOf head rest = .operator op → op.accepts items.length = false) →
      o.readAt (depth + 1) ((o.headOf head rest).source head) = .ok first →
      motive (depth + 1) ((o.headOf head rest).source head) first →
      List.Forall₂ (motive (depth + 1)) rest items →
      motive depth (.array (head :: rest)) (.collection (first :: items) o))
    {x : Json} {e : Expr} (h : o.readAt depth x = .ok e) : motive depth x e := by
  have hd := lt_of_readAt h
  induction x using Json.induction generalizing depth e with
  | null =>
    rw [readAt, if_neg (Nat.not_le.2 hd)] at h
    contradiction
  | boolean b =>
    rw [readAt_boolean hd] at h
    exact Except.ok.inj h ▸ boolean depth b hd
  | number n =>
    rw [readAt_number hd] at h
    exact Except.ok.inj h ▸ number depth n hd
  | string s => exact string depth s e hd (readAt_string hd s ▸ h)
  | object members =>
    rw [readAt, if_neg (Nat.not_le.2 hd)] at h
    contradiction
  | array items ih =>
    cases items with
    | nil =>
      rw [readAt, if_neg (Nat.not_le.2 hd)] at h
      contradiction
    | cons head rest =>
      have heach : ∀ es, o.readEach (depth + 1) rest = .ok es →
          List.Forall₂ (motive (depth + 1)) rest es := by
        intro es hes
        have hrest : ∀ x ∈ rest, ∀ e, o.readAt (depth + 1) x = .ok e → motive (depth + 1) x e :=
          fun x hx e he => ih x (List.mem_cons_of_mem _ hx) he (lt_of_readAt he)
        refine ((List.forall₂_and_left _ _).2 ⟨hrest, readEach_eq_ok_iff.1 hes⟩).imp ?_
        exact fun x e hxe => hxe.1 e hxe.2
      obtain ⟨-, ⟨op, operands, hop, hoperands, ha, rfl⟩ |
        ⟨first, items, hn, hfirst, hitems, rfl⟩⟩ := readAt_array_eq_ok_iff.1 h
      · exact operator depth head rest op operands hd hop ha (heach _ hoperands)
      · refine collection depth head rest first items hd hn hfirst ?_ (heach _ hitems)
        have hfirst' := lt_of_readAt hfirst
        cases hh : o.headOf head rest with
        | escaped s =>
          -- the string without its escape is no item of the document
          rw [hh] at hfirst
          exact string _ s first hfirst' (readAt_string hfirst' s ▸ hfirst)
        | _ =>
          rw [hh] at hfirst
          exact ih head (List.mem_cons_self ..) hfirst hfirst'

end Options

end RuleLogic
