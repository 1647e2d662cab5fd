import RuleLogic.Proofs.Address

/-! The affixes that make a string a reference. A reference is the two affixes around an address
that is not empty. Stripping and rendering undo each other there, and no string is a reference whose
affixes would have to share some of its text. -/
namespace RuleLogic

namespace Affix

variable {affix : Affix} {raw address : String}

/-! Stripping by length, with what one affix leaves as a slice of the string. -/

def dropBoth? (affix : Affix) (raw : String) : Option String :=
  (raw.dropPrefix? affix.before).bind fun rest =>
    (rest.dropSuffix? affix.after).map String.Slice.copy

/-- The bytes are counted before the affixes are taken off, so that some are left between them. -/
def stripCounted? (affix : Affix) (raw : String) : Option String :=
  if raw.utf8ByteSize ≤ affix.before.utf8ByteSize + affix.after.utf8ByteSize then none
  else affix.dropBoth? raw

theorem exists_dropPrefix?_iff {head rest : String} :
    (∃ slice, raw.dropPrefix? head = some slice ∧ slice.copy = rest) ↔ raw = head ++ rest := by
  constructor
  · rintro ⟨slice, hslice, rfl⟩
    exact String.eq_append_of_dropPrefix?_string_eq_some hslice
  · rintro rfl
    cases hslice : (head ++ rest).dropPrefix? head with
    | none =>
      rw [String.dropPrefix?_eq_dropPrefix?_toSlice, String.Slice.dropPrefix?_eq_none_iff,
        String.Slice.startsWith_string_eq_false_iff, String.copy_toSlice,
        String.toList_append] at hslice
      exact absurd (List.prefix_append _ _) hslice
    | some slice =>
      have happend := String.eq_append_of_dropPrefix?_string_eq_some hslice
      exact ⟨slice, rfl, ((String.append_right_inj head).1 happend).symm⟩

theorem exists_dropSuffix?_iff {slice : String.Slice} {tail rest : String} :
    (∃ front, slice.dropSuffix? tail = some front ∧ front.copy = rest) ↔
      slice.copy = rest ++ tail := by
  constructor
  · rintro ⟨front, hfront, rfl⟩
    exact String.Slice.eq_append_of_dropSuffix?_string_eq_some hfront
  · intro hcopy
    cases hfront : slice.dropSuffix? tail with
    | none =>
      rw [String.Slice.dropSuffix?_eq_none_iff, String.Slice.endsWith_string_eq_false_iff, hcopy,
        String.toList_append] at hfront
      exact absurd (List.suffix_append _ _) hfront
    | some front =>
      have happend := String.Slice.eq_append_of_dropSuffix?_string_eq_some hfront
      exact ⟨front, rfl, (String.append_left_inj tail).1 (happend.symm.trans hcopy)⟩

theorem utf8ByteSize_render (affix : Affix) (address : String) :
    (affix.render address).utf8ByteSize =
      affix.before.utf8ByteSize + address.utf8ByteSize + affix.after.utf8ByteSize := by
  rw [render, String.utf8ByteSize_append, String.utf8ByteSize_append]

theorem render_utf8ByteSize_le_iff :
    (affix.render address).utf8ByteSize ≤ affix.before.utf8ByteSize + affix.after.utf8ByteSize ↔
      address = "" := by
  rw [utf8ByteSize_render, ← String.utf8ByteSize_eq_zero_iff]
  omega

theorem dropBoth?_eq_some_iff :
    affix.dropBoth? raw = some address ↔ raw = affix.render address := by
  simp only [dropBoth?, Option.bind_eq_some_iff, Option.map_eq_some_iff, exists_dropSuffix?_iff]
  rw [exists_dropPrefix?_iff, render, String.append_assoc]

theorem stripCounted?_eq_some_iff :
    affix.stripCounted? raw = some address ↔ address ≠ "" ∧ raw = affix.render address := by
  unfold stripCounted?
  split
  · rename_i hshort
    simp only [reduceCtorEq, false_iff, not_and]
    rintro hne rfl
    exact hne (render_utf8ByteSize_le_iff.1 hshort)
  · rename_i hlong
    rw [dropBoth?_eq_some_iff, iff_and_self]
    rintro rfl
    exact mt render_utf8ByteSize_le_iff.2 hlong

theorem stripCounted?_eq (affix : Affix) (raw : String) :
    affix.stripCounted? raw = affix.strip? raw := by
  ext address
  rw [stripCounted?_eq_some_iff, strip?_eq_some_iff]

/-! Strings that carry both affixes. -/

structure Affixed (affix : Affix) (raw : String) : Prop where
  starts : ∃ rest, raw = affix.before ++ rest
  ends : ∃ rest, raw = rest ++ affix.after

/-- The affixes of a string share some of its text. -/
def Overlaps (affix : Affix) (raw : String) : Prop :=
  ∃ front shared back, shared ≠ "" ∧ affix.before = front ++ shared ∧
    affix.after = shared ++ back ∧ raw = front ++ shared ++ back

theorem affixed_render (affix : Affix) (address : String) :
    affix.Affixed (affix.render address) :=
  ⟨⟨_, String.append_assoc⟩, ⟨_, rfl⟩⟩

theorem Overlaps.affixed (h : affix.Overlaps raw) : affix.Affixed raw := by
  obtain ⟨front, shared, back, -, hbefore, hafter, rfl⟩ := h
  refine ⟨⟨back, ?_⟩, ⟨front, ?_⟩⟩
  · rw [hbefore]
  · rw [hafter, String.append_assoc]

theorem Overlaps.utf8ByteSize_lt (h : affix.Overlaps raw) :
    raw.utf8ByteSize < affix.before.utf8ByteSize + affix.after.utf8ByteSize := by
  obtain ⟨front, shared, back, hshared, hbefore, hafter, rfl⟩ := h
  have hpos := mt String.utf8ByteSize_eq_zero_iff.1 hshared
  rw [hbefore, hafter]
  simp only [String.utf8ByteSize_append]
  omega

theorem Overlaps.ne_render (h : affix.Overlaps raw) (address : String) :
    raw ≠ affix.render address := by
  rintro rfl
  have hshort := h.utf8ByteSize_lt
  rw [utf8ByteSize_render] at hshort
  omega

theorem append_eq_append_cases {front rest front' rest' : String}
    (h : front ++ rest = front' ++ rest') :
    (∃ between, front' = front ++ between ∧ rest = between ++ rest') ∨
      ∃ between, front = front' ++ between ∧ rest' = between ++ rest := by
  have hchars := congrArg String.toList h
  rw [String.toList_append, String.toList_append] at hchars
  rcases List.append_eq_append_iff.1 hchars with ⟨cs, hfront, hrest⟩ | ⟨cs, hfront, hrest⟩
  · refine .inl ⟨String.ofList cs, ?_, ?_⟩
    · rw [← String.toList_inj, String.toList_append, String.toList_ofList, hfront]
    · rw [← String.toList_inj, String.toList_append, String.toList_ofList, hrest]
  · refine .inr ⟨String.ofList cs, ?_, ?_⟩
    · rw [← String.toList_inj, String.toList_append, String.toList_ofList, hfront]
    · rw [← String.toList_inj, String.toList_append, String.toList_ofList, hrest]

/-- The text between the affixes is the address, unless the first reaches into the second. -/
theorem Affixed.overlaps_or_eq_render (h : affix.Affixed raw) :
    affix.Overlaps raw ∨ ∃ address, raw = affix.render address := by
  obtain ⟨⟨rest, hstarts⟩, ⟨front, hends⟩⟩ := h
  rcases append_eq_append_cases (hstarts.symm.trans hends) with
    ⟨address, rfl, -⟩ | ⟨shared, hbefore, hafter⟩
  · exact .inr ⟨address, hends⟩
  · by_cases hshared : shared = ""
    · right
      refine ⟨"", ?_⟩
      rw [hshared, String.append_empty] at hbefore
      rw [render, String.append_empty, hbefore, hends]
    · left
      refine ⟨front, shared, rest, hshared, hbefore, hafter, ?_⟩
      rw [hstarts, hbefore]

theorem overlaps_iff :
    affix.Overlaps raw ↔ affix.Affixed raw ∧
      raw.utf8ByteSize < affix.before.utf8ByteSize + affix.after.utf8ByteSize := by
  constructor
  · exact fun h => ⟨h.affixed, h.utf8ByteSize_lt⟩
  · rintro ⟨haffixed, hshort⟩
    rcases haffixed.overlaps_or_eq_render with hoverlaps | ⟨address, rfl⟩
    · exact hoverlaps
    · rw [utf8ByteSize_render] at hshort
      omega

theorem strip?_eq_none_iff :
    affix.strip? raw = none ↔
      ¬affix.Affixed raw ∨ affix.Overlaps raw ∨ raw = affix.before ++ affix.after := by
  rw [Option.eq_none_iff_forall_ne_some]
  simp only [ne_eq, strip?_eq_some_iff]
  constructor
  · intro h
    by_cases haffixed : affix.Affixed raw
    · rcases haffixed.overlaps_or_eq_render with hoverlaps | ⟨address, rfl⟩
      · exact .inr (.inl hoverlaps)
      · have hempty : address = "" := Decidable.not_not.1 fun hne => h address ⟨hne, rfl⟩
        refine .inr (.inr ?_)
        rw [hempty, render, String.append_empty]
    · exact .inl haffixed
  · rintro h address ⟨hne, rfl⟩
    rcases h with haffixed | hoverlaps | halone
    · exact haffixed (affixed_render affix address)
    · exact hoverlaps.ne_render address rfl
    · have hsize := congrArg String.utf8ByteSize halone
      rw [String.utf8ByteSize_append] at hsize
      exact hne (render_utf8ByteSize_le_iff.1 (Nat.le_of_eq hsize))

/-- Affixes are stripped exactly. What is stripped is the text between them, if there is any, and to
count the bytes first makes no difference. Rendering is the inverse. A string that has no place for
both affixes is no reference, and is read as a literal. -/
theorem strip?_exact (affix : Affix) :
    (∀ raw, affix.stripCounted? raw = affix.strip? raw) ∧
    (∀ raw address, affix.strip? raw = some address ↔
      address ≠ "" ∧ raw = affix.before ++ address ++ affix.after) ∧
    (∀ address, address ≠ "" → affix.strip? (affix.render address) = some address) ∧
    (∀ raw address, affix.strip? raw = some address → affix.render address = raw) ∧
    (∀ raw, affix.strip? raw = none ↔
      ¬affix.Affixed raw ∨ affix.Overlaps raw ∨ raw = affix.before ++ affix.after) ∧
    (∀ raw, affix.Overlaps raw ↔ affix.Affixed raw ∧
      raw.utf8ByteSize < affix.before.utf8ByteSize + affix.after.utf8ByteSize) ∧
    ∀ o : Options, o.affix = affix.format → ∀ raw, affix.Overlaps raw →
      o.readString raw = .ok (.literal (.string raw)) := by
  refine ⟨stripCounted?_eq affix, fun _ _ => strip?_eq_some_iff, fun address hne => ?_,
    fun raw address h => ?_, fun _ => strip?_eq_none_iff, fun _ => overlaps_iff, ?_⟩
  · exact strip?_eq_some_iff.2 ⟨hne, rfl⟩
  · exact (strip?_eq_some_iff.1 h).2.symm
  · intro o ho raw hoverlaps
    have hnone : affix.strip? raw = none := strip?_eq_none_iff.2 (.inr (.inl hoverlaps))
    exact Options.readString_eq_ok_iff.2 (.inl ⟨ho ▸ hnone, rfl⟩)

def guillemets : Affix := ⟨"«a", "a»"⟩

theorem strip?_exact_guillemets :
    guillemets.strip? "«aéa»" = some "é" ∧ guillemets.stripCounted? "«aa»" = none ∧
      guillemets.Overlaps "«a»" ∧
      ({ Options.default with affix := guillemets.format } : Options).readString "«a»" =
        .ok (.literal (.string "«a»")) := by
  obtain ⟨hcounted, -, hrender, -, hnone, -, hread⟩ := strip?_exact guillemets
  have hoverlaps : guillemets.Overlaps "«a»" := ⟨"«", "a", "»", by decide, rfl, rfl, rfl⟩
  refine ⟨hrender "é" (by decide), ?_, hoverlaps, hread _ rfl _ hoverlaps⟩
  rw [hcounted, hnone]
  exact .inr (.inr rfl)

end Affix

end RuleLogic
