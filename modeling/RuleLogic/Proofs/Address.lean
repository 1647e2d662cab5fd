import RuleLogic.Expr.Reader
import RuleLogic.Expr.Writer

/-! The strings inside of expressions. Stripping the affixes and rendering an address undo each
other, an address is put together again from its path and type, and so a string is written as it was
read. -/
namespace RuleLogic

/-- What is stripped to an address is what it is rendered to, and no address is empty. -/
def AddressFormat.Exact (format : AddressFormat) : Prop :=
  ∀ raw address, format.strip? raw = some address ↔ address ≠ "" ∧ raw = format.render address

namespace Affix

theorem strip?_eq_some_iff {affix : Affix} {raw address : String} :
    affix.strip? raw = some address ↔ address ≠ "" ∧ raw = affix.render address := by
  have hcut : ∀ cs, (dropHead? affix.before.toList raw.toList).bind
      (dropTail? affix.after.toList) = some cs ↔ raw = affix.render (String.ofList cs) := by
    intro cs
    simp only [Option.bind_eq_some_iff, dropHead?_eq_some_iff, dropTail?_eq_some_iff,
      exists_eq_right, render, ← String.toList_inj, String.toList_append, String.toList_ofList,
      List.append_assoc]
  unfold strip?
  constructor
  · intro h
    split at h
    · contradiction
    · contradiction
    · rename_i c cs hcs
      obtain rfl := Option.some.inj h
      exact ⟨by simp, (hcut _).1 hcs⟩
  · rintro ⟨hne, hraw⟩
    rw [← String.ofList_toList (s := address)] at hraw
    rw [(hcut _).2 hraw]
    split
    · contradiction
    · rename_i hnil
      exact absurd (String.toList_eq_nil_iff.1 (Option.some.inj hnil)) hne
    · rename_i c cs hcs
      rw [← Option.some.inj hcs, String.ofList_toList]

theorem exact_format (affix : Affix) : affix.format.Exact := fun _ _ => strip?_eq_some_iff

end Affix

namespace Reference

theorem splitOpening_eq_some {name cs path rest : List Char}
    (h : splitOpening name cs = some (path, rest)) :
    cs.reverse ++ name = path ++ '.' :: '(' :: rest := by
  fun_induction splitOpening name cs with
  | case1 name before =>
    obtain ⟨rfl, rfl⟩ := Prod.mk.inj (Option.some.inj h)
    simp
  | case2 name c before _ ih => simpa using ih h
  | case3 => contradiction

theorem splitOpening_append {name : List Char} (h : '(' ∉ name) (read before : List Char) :
    splitOpening read (name ++ '(' :: '.' :: before) =
      some (before.reverse, name.reverse ++ read) := by
  induction name generalizing read with
  | nil => rfl
  | cons c name ih =>
    obtain ⟨hc, hname⟩ := not_or.1 (mt List.mem_cons.2 h)
    rw [List.cons_append, splitOpening, ih hname, List.reverse_cons, List.append_assoc]
    · rfl
    · rintro _ rfl
      contradiction

/-- One upper-case ASCII letter and then lower-case ones, at least one. -/
def IsTypeName (name : String) : Prop :=
  ∃ first rest, name.toList = first :: rest ∧ first.isUpper = true ∧ rest ≠ [] ∧
    ∀ c ∈ rest, c.isLower = true

theorem isTypeName_iff {name : String} : isTypeName name.toList = true ↔ IsTypeName name := by
  unfold isTypeName IsTypeName
  split
  · rename_i hname
    constructor
    · intro h
      obtain ⟨hfirst, hrest⟩ := Bool.and_eq_true_iff.1 h
      exact ⟨_, _, hname, hfirst, List.cons_ne_nil _ _, List.all_eq_true.1 hrest⟩
    · rintro ⟨_, _, hcs, hfirst, -, hrest⟩
      obtain ⟨rfl, rfl⟩ := List.cons.inj (hname.symm.trans hcs)
      exact Bool.and_eq_true_iff.2 ⟨hfirst, List.all_eq_true.2 hrest⟩
  · rename_i hname
    simp only [Bool.false_eq_true, false_iff]
    rintro ⟨first, rest, hcs, -, hrest, -⟩
    obtain ⟨second, rest, rfl⟩ := List.exists_cons_of_ne_nil hrest
    exact hname _ _ _ hcs

theorem IsTypeName.opening_not_mem {name : String} (h : IsTypeName name) :
    '(' ∉ name.toList := by
  obtain ⟨first, rest, hname, hfirst, -, hrest⟩ := h
  rw [hname]
  intro hmem
  rcases List.mem_cons.1 hmem with rfl | hmem
  · exact absurd hfirst (by decide)
  · exact absurd (hrest _ hmem) (by decide)

theorem typeSuffix?_eq_some_iff {address path name : String} :
    typeSuffix? address = some (path, name) ↔
      address = path ++ ".(" ++ name ++ ")" ∧ path ≠ "" ∧ IsTypeName name := by
  constructor
  · intro h
    unfold typeSuffix? at h
    split at h
    · rename_i before hrev
      split at h
      · rename_i c cs rest hsplit
        split at h
        · rename_i htype
          obtain ⟨rfl, rfl⟩ := Prod.mk.inj (Option.some.inj h)
          have haddress : address.toList = before.reverse ++ [')'] := by
            rw [← List.reverse_reverse address.toList, hrev, List.reverse_cons]
          have hbefore := splitOpening_eq_some hsplit
          rw [List.append_nil] at hbefore
          refine ⟨?_, by simp, isTypeName_iff.1 (by rwa [String.toList_ofList])⟩
          rw [← String.toList_inj, haddress, hbefore]
          simp
        · contradiction
      · contradiction
    · contradiction
  · rintro ⟨rfl, hpath, htype⟩
    obtain ⟨c, cs, hcs⟩ := List.exists_cons_of_ne_nil (mt String.toList_eq_nil_iff.1 hpath)
    -- reversed, the name comes before the opening, so no other one is met first
    have hname : '(' ∉ name.toList.reverse := by
      rw [List.mem_reverse]
      exact htype.opening_not_mem
    have hrev : (path ++ ".(" ++ name ++ ")").toList.reverse =
        ')' :: (name.toList.reverse ++ '(' :: '.' :: path.toList.reverse) := by
      simp
    have hsplit : splitOpening [] (name.toList.reverse ++ '(' :: '.' :: path.toList.reverse) =
        some (c :: cs, name.toList) := by
      rw [splitOpening_append hname, List.reverse_reverse, List.reverse_reverse, List.append_nil,
        hcs]
    unfold typeSuffix?
    simp only [hrev, hsplit, isTypeName_iff.2 htype, if_true]
    rw [← hcs, String.ofList_toList, String.ofList_toList]

end Reference

theorem DataType.ofName?_eq_some {name : String} {type : DataType}
    (h : DataType.ofName? name = some type) : type.name = name ∧ type ≠ .undefined := by
  refine ⟨by simpa using List.find?_some h, ?_⟩
  rintro rfl
  have hmem := List.mem_of_find?_eq_some h
  simp [DataType.castable] at hmem

namespace Reference

theorem ofAddress_eq_ok {o : Options} {address : String} {r : Reference}
    (h : ofAddress o address = .ok r) :
    r.address = address ∧ r.written = address ∧ r.options = o := by
  unfold ofAddress at h
  split at h
  · obtain rfl := Except.ok.inj h
    exact ⟨rfl, rfl, rfl⟩
  · rename_i path name hsuffix
    split at h
    · rename_i type htype
      obtain rfl := Except.ok.inj h
      obtain ⟨hname, hne⟩ := DataType.ofName?_eq_some htype
      refine ⟨rfl, ?_, rfl⟩
      rw [(typeSuffix?_eq_some_iff.1 hsuffix).1, ← hname]
      cases type <;> first | rfl | contradiction
    · contradiction

end Reference

namespace Options

theorem readString_eq_ok_iff {o : Options} {s : String} {e : Expr} :
    o.readString s = .ok e ↔
      o.affix.strip? s = none ∧ e = .literal (.string s) ∨
        ∃ address r, o.affix.strip? s = some address ∧ Reference.ofAddress o address = .ok r ∧
          e = .reference r := by
  unfold readString
  cases hs : o.affix.strip? s with
  | none => simp [eq_comm]
  | some address => cases hr : Reference.ofAddress o address <;> simp [eq_comm, hr]

theorem toJson_of_readString {o : Options} (ho : o.affix.Exact) {s : String} {e : Expr}
    (h : o.readString s = .ok e) : e.toJson = .string s := by
  rcases readString_eq_ok_iff.1 h with ⟨_, rfl⟩ | ⟨address, r, hs, hr, rfl⟩
  · rfl
  · obtain ⟨_, hwritten, hoptions⟩ := Reference.ofAddress_eq_ok hr
    rw [Expr.toJson, hwritten, hoptions, ((ho s address).1 hs).2]

theorem readString_render {o : Options} (ho : o.affix.Exact) {address : String} {r : Reference}
    (hne : address ≠ "") (h : Reference.ofAddress o address = .ok r) :
    o.readString (o.affix.render address) = .ok (.reference r) :=
  readString_eq_ok_iff.2 (.inr ⟨address, r, (ho _ address).2 ⟨hne, rfl⟩, h, rfl⟩)

/-! The escape of a list head. -/

theorem unescape?_eq_some_iff {o : Options} (ho : o.escape ≠ "") {head s : String} :
    o.unescape? head = some s ↔ head = o.escaped s := by
  unfold unescape?
  rw [if_neg (by simpa using ho)]
  simp only [Option.map_eq_some_iff, Affix.dropHead?_eq_some_iff]
  constructor
  · rintro ⟨cs, hcs, rfl⟩
    rw [← String.toList_inj, escaped, String.toList_append, String.toList_ofList, hcs]
  · rintro rfl
    exact ⟨s.toList, String.toList_append, String.ofList_toList⟩

theorem unescape?_eq_none_iff {o : Options} (ho : o.escape ≠ "") {head : String} :
    o.unescape? head = none ↔ ¬o.escape.toList <+: head.toList := by
  rw [Option.eq_none_iff_forall_ne_some]
  constructor
  · rintro h ⟨cs, hcs⟩
    refine h (String.ofList cs) ((unescape?_eq_some_iff ho).2 ?_)
    rw [← String.toList_inj, escaped, String.toList_append, String.toList_ofList, hcs]
  · intro h s hs
    rw [unescape?_eq_some_iff ho] at hs
    exact h ⟨s.toList, by rw [hs, escaped, String.toList_append]⟩

end Options

end RuleLogic
