import RuleLogic.Proofs.Grammar

/-! The type that an address asks for. The text after the last `.(` decides: a type's name asks for
that type, another name of that form is refused, and all else belongs to the path. What a reference
is written with is the address that it was made from. -/
namespace RuleLogic

namespace DataType

theorem ofName?_eq_some_iff {name : String} {type : DataType} :
    ofName? name = some type ↔ type ≠ .undefined ∧ name = type.name := by
  constructor
  · intro h
    obtain ⟨hname, htype⟩ := ofName?_eq_some h
    exact ⟨htype, hname.symm⟩
  · rintro ⟨htype, rfl⟩
    cases type with
    | undefined => contradiction
    | _ => decide

end DataType

namespace Reference

variable {o : Options} {address path name : String} {type : DataType}

/-- The address asks for its path to be cast to a type. -/
structure AsksFor (address path : String) (type : DataType) : Prop where
  type_ne : type ≠ .undefined
  path_ne : path ≠ ""
  eq_append : address = path ++ ".(" ++ type.name ++ ")"

theorem isTypeName_name (type : DataType) : IsTypeName type.name := by
  apply isTypeName_iff.1
  cases type <;> decide

theorem asksFor_iff :
    AsksFor address path type ↔
      ∃ name, typeSuffix? address = some (path, name) ∧ DataType.ofName? name = some type := by
  simp only [typeSuffix?_eq_some_iff, DataType.ofName?_eq_some_iff]
  constructor
  · rintro ⟨htype, hpath, haddress⟩
    exact ⟨_, ⟨haddress, hpath, isTypeName_name type⟩, htype, rfl⟩
  · rintro ⟨name, ⟨haddress, hpath, -⟩, htype, rfl⟩
    exact ⟨htype, hpath, haddress⟩

theorem typeSuffix?_eq_none_iff :
    typeSuffix? address = none ↔
      ¬AsksUnknownType address ∧ ∀ path type, ¬AsksFor address path type := by
  simp only [asksUnknownType_iff, asksFor_iff]
  cases hsuffix : typeSuffix? address with
  | none => simp
  | some suffix =>
    obtain ⟨path, name⟩ := suffix
    cases hname : DataType.ofName? name with
    | none => simp [hname]
    | some type => simp [hname]

theorem ofAddress_eq_error_iff {fault : Fault} :
    ofAddress o address = .error fault ↔
      ∃ path name, address = path ++ ".(" ++ name ++ ")" ∧ path ≠ "" ∧ IsTypeName name ∧
        name ∉ ["Number", "Integer", "Float", "String", "Boolean"] ∧
        fault = .unsupportedType name address := by
  have hsplit : (∃ path name, address = path ++ ".(" ++ name ++ ")" ∧ path ≠ "" ∧
      IsTypeName name ∧ name ∉ ["Number", "Integer", "Float", "String", "Boolean"] ∧
      fault = .unsupportedType name address) ↔
      ∃ path name, typeSuffix? address = some (path, name) ∧ DataType.ofName? name = none ∧
        fault = .unsupportedType name address := by
    simp only [typeSuffix?_eq_some_iff, DataType.ofName?_eq_none_iff, and_assoc]
  rw [hsplit, ofAddress]
  cases typeSuffix? address with
  | none => simp
  | some suffix =>
    obtain ⟨path, name⟩ := suffix
    cases hname : DataType.ofName? name <;> simp [hname, eq_comm]

theorem ofAddress_eq_ok_iff {r : Reference} :
    ofAddress o address = .ok r ↔ r.address = address ∧ r.options = o ∧
      (AsksFor address r.path r.type ∨
        typeSuffix? address = none ∧ r.path = address ∧ r.type = .undefined) := by
  obtain ⟨found, path, type, options⟩ := r
  rw [asksFor_iff, ofAddress]
  cases typeSuffix? address with
  | none => grind
  | some suffix =>
    obtain ⟨before, name⟩ := suffix
    cases hname : DataType.ofName? name <;> grind

/-- A type suffix is recognised exactly. An address is refused for a name that no type has, asks for
a type if it is a path and the type's suffix, and is a path alone otherwise; it is written as it
was. -/
theorem ofAddress_suffix (o : Options) (address : String) :
    (∀ fault, ofAddress o address = .error fault ↔
      ∃ path name, address = path ++ ".(" ++ name ++ ")" ∧ path ≠ "" ∧ IsTypeName name ∧
        name ∉ ["Number", "Integer", "Float", "String", "Boolean"] ∧
        fault = .unsupportedType name address) ∧
    (∀ r, ofAddress o address = .ok r ↔ r.address = address ∧ r.options = o ∧
      (AsksFor address r.path r.type ∨
        (¬AsksUnknownType address ∧ ∀ path type, ¬AsksFor address path type) ∧
          r.path = address ∧ r.type = .undefined)) ∧
    ∀ r, ofAddress o address = .ok r →
      (Expr.reference r).toJson = .string (o.affix.render address) := by
  refine ⟨fun fault => ofAddress_eq_error_iff, fun r => ?_, fun r h => ?_⟩
  · rw [← typeSuffix?_eq_none_iff]
    exact ofAddress_eq_ok_iff
  · obtain ⟨-, hwritten, hoptions⟩ := ofAddress_eq_ok h
    rw [Expr.toJson, hwritten, hoptions]

def suffixedTwice : Reference := ⟨"a.(Struct).(Float)", "a.(Struct)", .float, .default⟩

theorem ofAddress_suffix_suffixedTwice :
    ofAddress .default "a.(Struct).(Float)" = .ok suffixedTwice ∧
      AsksFor "a.(Struct).(Float)" "a.(Struct)" .float ∧
      (Expr.reference suffixedTwice).toJson = .string "$a.(Struct).(Float)" ∧
      ofAddress .default "a.(Struct)" = .error (.unsupportedType "Struct" "a.(Struct)") := by
  have hok : ofAddress .default "a.(Struct).(Float)" = .ok suffixedTwice := rfl
  obtain ⟨-, hread, hwritten⟩ := ofAddress_suffix .default "a.(Struct).(Float)"
  obtain ⟨-, -, hasks | ⟨-, -, htype⟩⟩ := (hread suffixedTwice).1 hok
  · exact ⟨hok, hasks, hwritten _ hok, rfl⟩
  · contradiction

end Reference

end RuleLogic
