import RuleLogic.Diagnostic
import RuleLogic.Proofs.Suffix

/-! What an error of reading says. It is about the first part on the way through the document that
is too deep or refused, it says of this part what it would say of it alone, and it has its context
from the outermost of the lists around. The checks of the constructors never fail. -/
namespace RuleLogic

theorem Affix.render_default (address : String) :
    default.format.render address = "$" ++ address := by
  simp [format, render, default]

/-- A part of a document and the lists around it, the outermost first. -/
structure Visit where
  around : List (List Json)
  part : Json

def defaultTokens : List String := Operator.all.map Operator.defaultToken

def HasBackslash (s : String) : Prop := "\\".toList <+: s.toList

instance (s : String) : Decidable (HasBackslash s) :=
  inferInstanceAs (Decidable ("\\".toList <+: s.toList))

namespace Json

@[elab_as_elim]
theorem leafInduction {motive : Json → Prop} (leaf : ∀ x, x.IsLeaf → motive x)
    (list : ∀ head rest, (∀ x ∈ head :: rest, motive x) → motive (.array (head :: rest)))
    (x : Json) : motive x := by
  induction x using Json.induction with
  | array items ih =>
    cases items with
    | nil => exact leaf _ (by rintro _ _ ⟨⟩)
    | cons head rest => exact list head rest ih
  | _ => exact leaf _ (by rintro _ _ ⟨⟩)

def headText? (head : Json) (rest : List Json) : Option String :=
  match head, rest with
  | .string s, _ :: _ => some s
  | _, _ => none

mutual

/-- The parts of a document, each before its items and those from left to right. At the head of two
or more items a token is passed over, and another string comes without its backslash. -/
def visits (around : List (List Json)) : Json → List Visit
  | .array (head :: rest) =>
    let inside := around ++ [head :: rest]
    let first :=
      match headText? head rest with
      | some s =>
        if s ∈ defaultTokens then [] else [⟨inside, .string (Options.dropBackslash s)⟩]
      | none => visits inside head
    ⟨around, .array (head :: rest)⟩ :: (first ++ visitsEach inside rest)
  | x => [⟨around, x⟩]

def visitsEach (around : List (List Json)) : List Json → List Visit
  | [] => []
  | x :: rest => visits around x ++ visitsEach around rest

end

end Json

/-- What an error in a list is told apart by: its own text if a token heads the list, else why the
list is no expression. A list of one item, or with an escaped head, says nothing. -/
def Diagnostic.noteIn (d : Diagnostic) : List Json → Option String
  | .string s :: _ :: _ =>
    if HasBackslash s then none
    else if s ∈ defaultTokens then some (d.code.text ++ ": " ++ d.message)
    else some "IL0003: unexpected logical operator"
  | _ :: _ :: _ => some "IL0003: unexpected logical expression"
  | _ => none

namespace Visit

/-- The part is too deep, or else refused, and this is said of it alone. -/
inductive Offends (limit : Nat) : Visit → Diagnostic → Prop
  | tooDeep {v : Visit} (h : limit ≤ v.around.length) :
      Offends limit v
        ⟨.reading v.part.text, ⟨7⟩, s!"maximum nesting depth of {limit} exceeded", none⟩
  | null {around : List (List Json)} (h : around.length < limit) :
      Offends limit ⟨around, .null⟩ ⟨.reading "null", ⟨1⟩, "unexpected input", none⟩
  | empty {around : List (List Json)} (h : around.length < limit) :
      Offends limit ⟨around, .array []⟩ ⟨.reading "[]", ⟨2⟩, "invalid undefined operand", none⟩
  | object {around : List (List Json)} (members : List (String × Json))
      (h : around.length < limit) :
      Offends limit ⟨around, .object members⟩
        ⟨.reading (Json.object members).text, ⟨4⟩,
          "invalid operand, " ++ (Json.object members).text, none⟩
  | unknownType {around : List (List Json)} {address path name : String}
      (h : around.length < limit) (haddress : address = path ++ ".(" ++ name ++ ")")
      (hpath : path ≠ "") (hname : Reference.IsTypeName name)
      (hunknown : name ∉ ["Number", "Integer", "Float", "String", "Boolean"]) :
      Offends limit ⟨around, .string ("$" ++ address)⟩
        ⟨.reading address, ⟨6⟩, s!"unsupported \"{name}\" type casting", none⟩

variable {limit : Nat}

theorem Offends.refused {around : List (List Json)} {part : Json} {d : Diagnostic}
    (h : Offends limit ⟨around, part⟩ d) (hlevel : around.length < limit) :
    part.Refused Affix.default.format := by
  cases h with
  | tooDeep hdeep => exact absurd hlevel (Nat.not_lt.2 hdeep)
  | null => exact .null
  | empty => exact .empty
  | object members => exact .object members
  | @unknownType _ address path name _ haddress hpath hname hunknown =>
    rw [← Affix.render_default]
    exact .reference ⟨path, name, haddress, hpath, hname, hunknown⟩

theorem Offends.code_mem {v : Visit} {d : Diagnostic} (h : v.Offends limit d) :
    d.code.text ∈ ["IL0001", "IL0002", "IL0004", "IL0006", "IL0007"] := by
  have hcode : d.code ∈ [⟨1⟩, ⟨2⟩, ⟨4⟩, ⟨6⟩, ⟨7⟩] := by cases h <;> simp
  exact List.mem_map_of_mem (f := Code.text) hcode

theorem Offends.eq_of_withContext {v : Visit} {d d' : Diagnostic} {context : Option String}
    (h : v.Offends limit d) (heq : d' = { d with context := context }) :
    d = { d' with context := none } := by
  subst heq
  cases h <;> rfl

end Visit

theorem ReadError.diagnostic_eq (e : ReadError) :
    e.diagnostic =
      { e.fault.diagnostic with context := e.surrounding.map (·.context e.fault) } := by
  obtain ⟨fault, surrounding⟩ := e
  cases surrounding <;> rfl

/-- What reading some parts came to: none of them offends, or the first that does is the one that
the error is about. Its context is from the lists inside those around all the parts. -/
def Reports (limit : Nat) (around : List (List Json)) (visits : List Visit) {α : Type} :
    Except ReadError α → Prop
  | .ok _ => ∀ v ∈ visits, ∀ d, ¬v.Offends limit d
  | .error e => ∃ before v after inside, visits = before ++ v :: after ∧
      (∀ u ∈ before, ∀ d, ¬u.Offends limit d) ∧ v.around = around ++ inside ∧
      v.Offends limit e.fault.diagnostic ∧
      e.surrounding.map (·.context e.fault) = inside.findSome? e.fault.diagnostic.noteIn

namespace Reports

variable {limit : Nat} {around : List (List Json)} {us vs : List Visit} {α β : Type}

theorem single {part : Json} {fault : Fault}
    (h : Visit.Offends limit ⟨around, part⟩ fault.diagnostic) :
    Reports limit around (⟨around, part⟩ :: vs) (.error (.of fault) : Except ReadError α) :=
  ⟨[], ⟨around, part⟩, vs, [], rfl, List.forall_mem_nil _, (List.append_nil _).symm, h, rfl⟩

theorem ok {part : Json} (a : α) (hlevel : around.length < limit)
    (h : ¬part.Refused Affix.default.format) : Reports limit around [⟨around, part⟩] (.ok a) :=
  List.forall_mem_singleton.2 fun _ hd => h (hd.refused hlevel)

theorem append {r : Except ReadError α} (hus : ∀ u ∈ us, ∀ d, ¬u.Offends limit d)
    (hr : Reports limit around vs r) : Reports limit around (us ++ vs) r := by
  cases r with
  | ok a => exact List.forall_mem_append.2 ⟨hus, hr⟩
  | error e =>
    obtain ⟨before, v, after, inside, rfl, hbefore, hv⟩ := hr
    refine ⟨us ++ before, v, after, inside, ?_, List.forall_mem_append.2 ⟨hus, hbefore⟩, hv⟩
    rw [List.append_assoc]

theorem cons {first : Except ReadError Expr} {rest : Except ReadError (List Expr)}
    (hfirst : Reports limit around us first) (hrest : Reports limit around vs rest) :
    Reports limit around (us ++ vs) (do return (← first) :: (← rest)) := by
  cases first with
  | ok a =>
    have hall := hrest.append hfirst
    cases rest <;> exact hall
  | error e =>
    obtain ⟨before, v, after, inside, rfl, hv⟩ := hfirst
    refine ⟨before, v, after ++ vs, inside, ?_, hv⟩
    rw [List.append_assoc, List.cons_append]

theorem inside {items : List Json} {surrounding : Surrounding} {e : ReadError}
    (hnote : e.fault.diagnostic.noteIn items = some (surrounding.context e.fault))
    (h : Reports limit (around ++ [items]) vs (.error e : Except ReadError α)) :
    Reports limit around vs (.error (e.inside surrounding) : Except ReadError β) := by
  obtain ⟨before, v, after, inside, hvs, hbefore, haround, hv, -⟩ := h
  refine ⟨before, v, after, items :: inside, hvs, hbefore, ?_, hv, ?_⟩
  · rw [haround, List.append_assoc, List.singleton_append]
  · rw [List.findSome?_cons]
    exact hnote ▸ rfl

theorem through {items : List Json} {e : ReadError}
    (hnote : e.fault.diagnostic.noteIn items = none)
    (h : Reports limit (around ++ [items]) vs (.error e : Except ReadError α)) :
    Reports limit around vs (.error e : Except ReadError β) := by
  obtain ⟨before, v, after, inside, hvs, hbefore, haround, hv, hcontext⟩ := h
  refine ⟨before, v, after, items :: inside, hvs, hbefore, ?_, hv, ?_⟩
  · rw [haround, List.append_assoc, List.singleton_append]
  · rw [List.findSome?_cons, hnote]
    exact hcontext

theorem gather {o : Options} {items : List Json} {surrounding : Option Surrounding}
    {first : Except ReadError Expr} {rest : Except ReadError (List Expr)}
    (hnote : ∀ f : Fault, f.diagnostic.noteIn items = surrounding.map (·.context f))
    (hfirst : Reports limit (around ++ [items]) us first)
    (hrest : Reports limit (around ++ [items]) vs rest) :
    Reports limit around (us ++ vs) (o.gather surrounding first rest) := by
  have hall := hfirst.cons hrest
  unfold Options.gather
  dsimp only
  cases hread : (do return (← first) :: (← rest) : Except ReadError (List Expr)) with
  | ok es =>
    rw [hread] at hall
    exact hall
  | error e =>
    rw [hread] at hall
    cases surrounding with
    | none => exact hall.through (hnote e.fault)
    | some s => exact hall.inside (hnote e.fault)

end Reports

def Head.surrounding? : Head → Option Surrounding
  | .headless => some .headless
  | .unknown => some .unknownHead
  | .operator _ => some .expression
  | _ => none

def Head.item? (head : Json) : Head → Option Json
  | .operator _ => none
  | h => some (h.source head)

namespace Options

open Json Reports

theorem readString_eq_error {o : Options} (ho : o.affix.Exact) {s : String} {e : ReadError}
    (h : o.readString s = .error e) :
    ∃ address fault, s = o.affix.render address ∧
      Reference.ofAddress o address = .error fault ∧ e = .of fault := by
  unfold readString at h
  split at h
  · contradiction
  · rename_i address hstrip
    split at h
    · contradiction
    · rename_i fault hfault
      obtain ⟨-, hs⟩ := (ho s address).1 hstrip
      exact ⟨address, fault, hs, hfault, (Except.error.inj h).symm⟩

structure DefaultSyntax (o : Options) : Prop where
  operators : o.operators = .default
  affix : o.affix = Affix.default.format
  escape : o.escape = defaultEscape

namespace DefaultSyntax

variable {o : Options} (ho : o.DefaultSyntax)

include ho

theorem escape_ne : o.escape ≠ "" := by
  rw [ho.escape]
  decide

theorem exact : o.affix.Exact := by
  rw [ho.affix]
  exact Affix.default.exact_format

theorem unescape?_eq (s : String) :
    o.unescape? s = if HasBackslash s then some (dropBackslash s) else none := by
  have hnone : o.unescape? s = none ↔ ¬HasBackslash s := by
    rw [unescape?_eq_none_iff ho.escape_ne, ho.escape]
    rfl
  split
  · rename_i hs
    obtain ⟨t, ht⟩ := Option.ne_none_iff_exists'.1 (mt hnone.1 (not_not_intro hs))
    rw [← unescape_eq_dropBackslash ho.escape, unescape, ht, Option.getD_some]
  · rename_i hs
    exact hnone.2 hs

theorem lookup_eq_some_iff {s : String} {op : Operator} :
    o.operators.lookup s = some op ↔ s = op.defaultToken := by
  rw [ho.operators, TokenTable.lookup_default_eq_some_iff]

theorem mem_defaultTokens_iff {s : String} :
    s ∈ defaultTokens ↔ ∃ op, o.operators.lookup s = some op := by
  simp [defaultTokens, ho.lookup_eq_some_iff, Operator.mem_all, eq_comm]

theorem headOf_string_cases {s : String} {rest : List Json} (hrest : rest ≠ []) :
    HasBackslash s ∧ s ∉ defaultTokens ∧
        o.headOf (.string s) rest = .escaped (dropBackslash s) ∨
      ¬HasBackslash s ∧ s ∈ defaultTokens ∧ (∃ op, o.headOf (.string s) rest = .operator op) ∨
      ¬HasBackslash s ∧ s ∉ defaultTokens ∧ dropBackslash s = s ∧
        o.headOf (.string s) rest = .unknown := by
  rw [headOf_string hrest, ho.unescape?_eq]
  by_cases hs : HasBackslash s
  · have hno : s ∉ defaultTokens := fun hmem =>
      (by decide : ∀ t ∈ defaultTokens, ¬HasBackslash t) s hmem hs
    exact .inl ⟨hs, hno, by rw [if_pos hs]⟩
  · rw [if_neg hs]
    cases hl : o.operators.lookup s with
    | some op => exact .inr (.inl ⟨hs, ho.mem_defaultTokens_iff.2 ⟨op, hl⟩, op, rfl⟩)
    | none =>
      have hno : s ∉ defaultTokens := by
        rw [ho.mem_defaultTokens_iff]
        simp [hl]
      have hkept : dropBackslash s = s := by
        rw [← unescape_eq_dropBackslash ho.escape, unescape, ho.unescape?_eq, if_neg hs]
        rfl
      exact .inr (.inr ⟨hs, hno, hkept, rfl⟩)

theorem visits_array (around : List (List Json)) (head : Json) (rest : List Json) :
    visits around (.array (head :: rest)) =
      ⟨around, .array (head :: rest)⟩ ::
        (((o.headOf head rest).item? head).elim [] (visits (around ++ [head :: rest])) ++
          visitsEach (around ++ [head :: rest]) rest) := by
  rw [visits]
  cases rest with
  | nil => simp [headText?, headOf, Head.item?, Head.source]
  | cons second rest =>
    cases head with
    | string s =>
      obtain ⟨-, hno, hh⟩ | ⟨-, htoken, op, hh⟩ | ⟨-, hno, hkept, hh⟩ :=
        ho.headOf_string_cases (s := s) (List.cons_ne_nil second rest)
      · simp [headText?, hh, hno, Head.item?, Head.source, visits]
      · simp [headText?, hh, htoken, Head.item?]
      · simp [headText?, hh, hno, hkept, Head.item?, Head.source, visits]
    | _ => simp [headText?, headOf, Head.item?, Head.source]

theorem noteIn_eq (f : Fault) (head : Json) (rest : List Json) :
    f.diagnostic.noteIn (head :: rest) =
      (o.headOf head rest).surrounding?.map (·.context f) := by
  cases rest with
  | nil => cases head <;> rfl
  | cons second rest =>
    cases head with
    | string s =>
      rw [Diagnostic.noteIn]
      obtain ⟨hs, -, hh⟩ | ⟨hs, htoken, op, hh⟩ | ⟨hs, hno, -, hh⟩ :=
        ho.headOf_string_cases (s := s) (List.cons_ne_nil second rest)
      · rw [if_pos hs, hh]
        rfl
      · rw [if_neg hs, if_pos htoken, hh]
        rfl
      · rw [if_neg hs, if_neg hno, hh]
        rfl
    | _ => rfl

theorem reports_readString {around : List (List Json)} (hlevel : around.length < o.maxDepth)
    (s : String) : Reports o.maxDepth around [⟨around, .string s⟩] (o.readString s) := by
  cases hread : o.readString s with
  | ok e =>
    have hnot := (exists_readString_iff ho.exact).1 ⟨e, hread⟩
    exact .ok e hlevel (ho.affix ▸ hnot)
  | error e =>
    obtain ⟨address, fault, rfl, hfault, rfl⟩ := readString_eq_error ho.exact hread
    obtain ⟨path, name, haddress, hpath, hname, hunknown, rfl⟩ :=
      Reference.ofAddress_eq_error_iff.1 hfault
    rw [ho.affix, Affix.render_default]
    exact .single (.unknownType hlevel haddress hpath hname hunknown)

omit ho in
theorem reports_readAt_tooDeep {around : List (List Json)} (hlevel : o.maxDepth ≤ around.length)
    (x : Json) : Reports o.maxDepth around (visits around x) (o.readAt around.length x) := by
  obtain ⟨vs, hvs⟩ : ∃ vs, visits around x = ⟨around, x⟩ :: vs := by
    unfold visits
    split <;> exact ⟨_, rfl⟩
  unfold readAt
  rw [hvs, if_pos hlevel]
  exact .single (.tooDeep hlevel)

theorem reports_readAt_leaf {x : Json} (hx : x.IsLeaf) (around : List (List Json)) :
    Reports o.maxDepth around (visits around x) (o.readAt around.length x) := by
  obtain hlevel | hlevel := Nat.lt_or_ge around.length o.maxDepth
  · unfold readAt
    rw [if_neg (Nat.not_le.2 hlevel)]
    cases x with
    | null => exact .single (.null hlevel)
    | boolean b => exact .ok _ hlevel (by rintro ⟨⟩)
    | number n => exact .ok _ hlevel (by rintro ⟨⟩)
    | string s => exact ho.reports_readString hlevel s
    | object members => exact .single (.object members hlevel)
    | array items =>
      cases items with
      | nil => exact .single (.empty hlevel)
      | cons head rest => exact absurd rfl (hx head rest)
  · exact reports_readAt_tooDeep hlevel x

omit ho in
theorem reports_readEach {xs : List Json} {around : List (List Json)}
    (h : ∀ x ∈ xs, Reports o.maxDepth around (visits around x) (o.readAt around.length x)) :
    Reports o.maxDepth around (visitsEach around xs) (o.readEach around.length xs) := by
  induction xs with
  | nil => exact List.forall_mem_nil _
  | cons x rest ih =>
    rw [List.forall_mem_cons] at h
    rw [visitsEach, readEach]
    exact h.1.cons (ih h.2)

theorem exists_readAt_head {depth : Nat} {head : Json} {rest : List Json} {op : Operator}
    {operands : List Expr} (hop : o.headOf head rest = .operator op)
    (hoperands : o.readEach depth rest = .ok operands) : ∃ e, o.readAt depth head = .ok e := by
  obtain ⟨hrest, s, rfl, -, hs⟩ := exists_of_headOf_operator hop
  obtain ⟨x, hx⟩ := List.exists_mem_of_ne_nil rest hrest
  obtain ⟨e, he⟩ := exists_readEach_iff.1 ⟨operands, hoperands⟩ x hx
  rw [readAt_string (lt_of_readAt he)]
  exact (exists_readString_iff ho.exact).2
    (readableTokens_of_default ho.operators ho.affix s op hs)

/-- Reading names the first part that offends. -/
theorem reports_readAt (x : Json) (around : List (List Json)) :
    Reports o.maxDepth around (visits around x) (o.readAt around.length x) := by
  induction x using leafInduction generalizing around with
  | leaf x hx => exact ho.reports_readAt_leaf hx around
  | list head rest ih =>
    obtain hlevel | hlevel := Nat.lt_or_ge around.length o.maxDepth
    swap
    · exact reports_readAt_tooDeep hlevel _
    have hlength : (around ++ [head :: rest]).length = around.length + 1 := by simp
    have hrest := reports_readEach fun x hx =>
      ih x (List.mem_cons_of_mem _ hx) (around ++ [head :: rest])
    have hhead := ih head (List.mem_cons_self ..) (around ++ [head :: rest])
    have hnote := fun f => ho.noteIn_eq f head rest
    rw [hlength] at hrest hhead
    rw [ho.visits_array, readAt, if_neg (Nat.not_le.2 hlevel)]
    have hself : ∀ d, ¬Visit.Offends o.maxDepth ⟨around, .array (head :: rest)⟩ d := by
      intro d hd
      cases hd.refused hlevel
    refine Reports.append (List.forall_mem_singleton.2 hself) ?_
    cases hh : o.headOf head rest with
    | only | headless | unknown =>
      rw [hh] at hnote
      exact .gather hnote hhead hrest
    | escaped s =>
      have hleaf : (Json.string s).IsLeaf := by rintro _ _ ⟨⟩
      have hs := ho.reports_readAt_leaf hleaf (around ++ [head :: rest])
      rw [hlength, ← readHead_eq] at hs
      rw [hh] at hnote
      exact .gather hnote hs hrest
    | operator op =>
      rw [hh] at hnote
      dsimp only
      cases hoperands : o.readEach (around.length + 1) rest with
      | error e =>
        rw [hoperands] at hrest
        exact hrest.inside (hnote e.fault)
      | ok operands =>
        rw [hoperands] at hrest
        -- the token is only read once the operands are, and then it cannot fail
        obtain ⟨e, he⟩ := ho.exists_readAt_head hh hoperands
        dsimp only
        rw [he]
        split <;> exact hrest

end DefaultSyntax

def gatherChecked (o : Options) (surrounding : Option Surrounding)
    (first : Except ReadError Expr) (rest : Except ReadError (List Expr)) : Except ReadError Expr :=
  let collected := do (Expr.collect o ((← first) :: (← rest))).mapError .of
  match collected, surrounding with
  | .ok e, _ => .ok e
  | .error e, some s => .error (e.inside s)
  | .error e, none => .error e

mutual

def readCheckedAt (o : Options) (depth : Nat) (data : Json) : Except ReadError Expr :=
  if o.maxDepth ≤ depth then .error (.of (.tooDeep o.maxDepth data))
  else match data with
    | .null => .error (.of .missing)
    | .boolean b => .ok (.literal (.boolean b))
    | .number n => .ok (.literal (.ofNumber n))
    | .string s => o.readString s
    | .object members => .error (.of (.notOperand (.object members)))
    | .array [] => .error (.of .emptyList)
    | .array (head :: rest) =>
      let hd := o.headOf head rest
      match hd with
      | .operator op =>
        match readEachChecked o (depth + 1) rest with
        | .error e => .error (e.inside .expression)
        | .ok operands =>
          if op.accepts operands.length then (Expr.build o op operands).mapError .of
          else o.gatherChecked none (readCheckedAt o (depth + 1) head) (.ok operands)
      | .escaped s =>
        o.gatherChecked none (o.readHead (depth + 1) s) (readEachChecked o (depth + 1) rest)
      | _ =>
        o.gatherChecked hd.surrounding? (readCheckedAt o (depth + 1) head)
          (readEachChecked o (depth + 1) rest)

def readEachChecked (o : Options) (depth : Nat) : List Json → Except ReadError (List Expr)
  | [] => .ok []
  | data :: rest => do return (← readCheckedAt o depth data) :: (← readEachChecked o depth rest)

end

def readChecked (o : Options) (data : Json) : Except ReadError Expr := o.readCheckedAt 0 data

variable {o : Options}

theorem gatherChecked_eq (surrounding : Option Surrounding) (first : Except ReadError Expr)
    (rest : Except ReadError (List Expr)) :
    o.gatherChecked surrounding first rest = o.gather surrounding first rest := by
  cases first <;> cases rest <;> cases surrounding <;> rfl

theorem readEachChecked_eq {depth : Nat} {xs : List Json}
    (h : ∀ x ∈ xs, o.readCheckedAt depth x = o.readAt depth x) :
    o.readEachChecked depth xs = o.readEach depth xs := by
  induction xs with
  | nil => rfl
  | cons x rest ih =>
    rw [List.forall_mem_cons] at h
    rw [readEachChecked, readEach, h.1, ih h.2]

theorem readCheckedAt_eq (depth : Nat) (x : Json) :
    o.readCheckedAt depth x = o.readAt depth x := by
  induction x using Json.induction generalizing depth with
  | array items ih =>
    cases items with
    | nil => rw [readCheckedAt, readAt]
    | cons head rest =>
      have hhead := ih head (List.mem_cons_self ..) (depth + 1)
      have hrest := readEachChecked_eq fun x hx => ih x (List.mem_cons_of_mem _ hx) (depth + 1)
      rw [readCheckedAt, readAt, hhead, hrest]
      congr 1
      cases hh : o.headOf head rest with
      | operator op =>
        dsimp only
        cases o.readEach (depth + 1) rest with
        | error e => rfl
        | ok operands =>
          dsimp only
          split
          · rename_i ha
            rw [Expr.build_eq_ok_iff.2 ⟨ha, rfl⟩]
            rfl
          · rw [gatherChecked_eq]
      | _ => exact gatherChecked_eq ..
  | _ => rw [readCheckedAt, readAt]

/-- An error of reading is the diagnosis of the first part that offends, with the context that the
outermost list around it gives which gives any. -/
theorem exists_offence_of_read {o : Options} (ho : o.DefaultSyntax) {x : Json} {e : ReadError}
    (h : o.read x = .error e) :
    o.readChecked x = .error e ∧
      ∃ before v after d, x.visits [] = before ++ v :: after ∧
        (∀ u ∈ before, ∀ d', ¬u.Offends o.maxDepth d') ∧ v.Offends o.maxDepth d ∧
        e.diagnostic = { d with context := v.around.findSome? d.noteIn } ∧
        d.code.text ∈ ["IL0001", "IL0002", "IL0004", "IL0006", "IL0007"] := by
  refine ⟨by rw [readChecked, readCheckedAt_eq]; exact h, ?_⟩
  have hread : o.readAt ([] : List (List Json)).length x = .error e := h
  have hreports := ho.reports_readAt x []
  rw [hread] at hreports
  obtain ⟨before, v, after, inside, hvisits, hbefore, haround, hv, hcontext⟩ := hreports
  obtain rfl : v.around = inside := haround
  exact ⟨before, v, after, e.fault.diagnostic, hvisits, hbefore, hv,
    hcontext ▸ e.diagnostic_eq, hv.code_mem⟩

/-- `["a", ["AND", ["\\OR", "$b.(Struct)"], null], {}]` -/
def structRule : Json :=
  .array
    [.string "a",
      .array [.string "AND", .array [.string "\\OR", .string "$b.(Struct)"], .null],
      .object []]

def structError : ReadError := ⟨.unsupportedType "Struct" "b.(Struct)", some .unknownHead⟩

def structSaid : Diagnostic :=
  ⟨.reading "b.(Struct)", ⟨6⟩, "unsupported \"Struct\" type casting", none⟩

def objectPart : Json :=
  .object
    [("name", .array [.string "é\t", .boolean false]),
      ("rate", .number (.double (.finite false ⟨8687021468732621, 1028, by decide, by decide,
        .inr (by decide)⟩) rfl))]

def objectRule : Json := .array [.array [.boolean true, objectPart]]

def objectError : ReadError := ⟨.notOperand objectPart, some .headless⟩

def objectSaid : Diagnostic :=
  ⟨.reading "\x7b\"name\":[\"é\\t\",false],\"rate\":123.45\x7d", ⟨4⟩,
    "invalid operand, \x7b\"name\":[\"é\\t\",false],\"rate\":123.45\x7d", none⟩

def deepPart : Json :=
  .array
    [.string "\"\\/\n\r\t\x08\x0c\x01", .number (.integer (-3)),
      .number (.double (.finite true ⟨7205759403792794, 1018, by decide, by decide,
        .inr (by decide)⟩) rfl),
      .number (.double (.finite false ⟨5000000000000000, 1075, by decide, by decide,
        .inr (by decide)⟩) rfl),
      .number (.double (.finite false ⟨7083549724304468, 1002, by decide, by decide,
        .inr (by decide)⟩) rfl),
      .number (.double .zero rfl), .number (.large 18446744073709551615), .null, .array [],
      .object [("k", .array [.number (.integer 12), .boolean true])]]

/-- `["OR", ["\"\\/\n\r\t\b\f\u0001", -3, -0.1, 1e16, 1.5e-6, 0.0, 18446744073709551615, null, [],
{"k": [12, true]}]]` -/
def deepRule : Json := .array [.string "OR", deepPart]

def deepError : ReadError := ⟨.tooDeep 1 deepPart, some .expression⟩

def deepSaid : Diagnostic :=
  ⟨.reading ("[\"\\\"\\\\/\\n\\r\\t\\b\\f\\u0001\",-3,-0.1,1e+16,1.5e-6,0.0," ++
    "18446744073709551615,null,[],\x7b\"k\":[12,true]\x7d]"), ⟨7⟩,
    "maximum nesting depth of 1 exceeded", none⟩

def flatOnly : Options := { default with maxDepth := 1 }

theorem exists_offence_of_read_texts :
    (default.read structRule = .error structError ∧
      structError.diagnostic =
        { structSaid with context := some "IL0003: unexpected logical operator" } ∧
      ∃ before v after, structRule.visits [] = before ++ v :: after ∧
        (∀ u ∈ before, ∀ d, ¬u.Offends 128 d) ∧ v.Offends 128 structSaid) ∧
    (default.read objectRule = .error objectError ∧
      objectError.diagnostic =
        { objectSaid with context := some "IL0003: unexpected logical expression" } ∧
      ∃ before v after, objectRule.visits [] = before ++ v :: after ∧
        (∀ u ∈ before, ∀ d, ¬u.Offends 128 d) ∧ v.Offends 128 objectSaid) ∧
    (flatOnly.read deepRule = .error deepError ∧
      deepError.diagnostic =
        { deepSaid with context := some "IL0007: maximum nesting depth of 1 exceeded" } ∧
      ∃ before v after, deepRule.visits [] = before ++ v :: after ∧
        (∀ u ∈ before, ∀ d, ¬u.Offends 1 d) ∧ v.Offends 1 deepSaid) := by
  have hcase : ∀ {o : Options} {x : Json} {e : ReadError} {said : Diagnostic}
      {context : Option String}, o.DefaultSyntax → o.read x = .error e →
      e.diagnostic = { said with context := context } → said.context = none →
      o.read x = .error e ∧ e.diagnostic = { said with context := context } ∧
        ∃ before v after, x.visits [] = before ++ v :: after ∧
          (∀ u ∈ before, ∀ d, ¬u.Offends o.maxDepth d) ∧ v.Offends o.maxDepth said := by
    rintro o x e ⟨stage, code, message, _⟩ context ho hread hdiagnostic rfl
    obtain ⟨-, before, v, after, d, hvisits, hbefore, hv, heq, -⟩ :=
      exists_offence_of_read ho hread
    have hsaid : d = ⟨stage, code, message, none⟩ :=
      hv.eq_of_withContext (hdiagnostic.symm.trans heq)
    exact ⟨hread, hdiagnostic, before, v, after, hvisits, hbefore, hsaid ▸ hv⟩
  have hdefault : default.DefaultSyntax := ⟨rfl, rfl, rfl⟩
  have hflat : flatOnly.DefaultSyntax := ⟨rfl, rfl, rfl⟩
  exact ⟨hcase hdefault rfl (by decide +kernel) rfl, hcase hdefault rfl (by decide +kernel) rfl,
    hcase hflat rfl (by decide +kernel) rfl⟩

end Options

end RuleLogic
