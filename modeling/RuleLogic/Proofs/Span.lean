import RuleLogic.Proofs.Interpolation

/-! The segment that is looked up next, by byte positions. Of all pairs of braces with some text and
no brace between them it is the one that starts first, and one pass over the bytes that remembers
the last opening brace finds it. The positions of its braces are boundaries of characters. -/
namespace RuleLogic

def utf8 (cs : List Char) : List UInt8 := cs.flatMap String.utf8EncodeChar

@[simp] theorem utf8_nil : utf8 [] = [] := rfl

theorem utf8_cons (c : Char) (cs : List Char) :
    utf8 (c :: cs) = String.utf8EncodeChar c ++ utf8 cs :=
  List.flatMap_cons

@[simp] theorem utf8_append (cs ds : List Char) : utf8 (cs ++ ds) = utf8 cs ++ utf8 ds :=
  List.flatMap_append

theorem toList_toUTF8 (s : String) : s.toUTF8.data.toList = utf8 s.toList := by
  conv_lhs => rw [← String.ofList_toList (s := s)]
  rw [String.toUTF8_eq_toByteArray, String.toByteArray_ofList, List.utf8Encode,
    List.toList_data_toByteArray]
  rfl

theorem length_utf8 (cs : List Char) : (utf8 cs).length = (String.ofList cs).utf8ByteSize := by
  rw [← String.toList_ofList (l := cs), ← toList_toUTF8, String.ofList_toList]
  rfl

theorem length_utf8_pos {cs : List Char} (h : cs ≠ []) : 0 < (utf8 cs).length := by
  obtain ⟨c, cs, rfl⟩ := List.exists_cons_of_ne_nil h
  have hpos := c.utf8Size_pos
  rw [utf8_cons, List.length_append, String.length_utf8EncodeChar]
  omega

theorem utf8EncodeChar_of_mem {b : UInt8} {c : Char} (hb : b.toNat < 128)
    (h : b ∈ String.utf8EncodeChar c) : String.utf8EncodeChar c = [b] ∧ c.toNat = b.toNat := by
  have hc : c.toNat = c.val.toNat := rfl
  unfold String.utf8EncodeChar at h ⊢
  dsimp only at h ⊢
  split at h
  · rename_i hascii
    obtain rfl := List.mem_singleton.1 h
    have hsize : c.val.toNat < UInt8.size := Nat.lt_of_le_of_lt hascii (by decide)
    rw [if_pos hascii, hc, UInt8.toNat_ofNat_of_lt' hsize]
    exact ⟨rfl, rfl⟩
  · exfalso
    rename_i hlarge
    split at h
    · simp only [List.mem_cons, List.not_mem_nil, or_false] at h
      rcases h with rfl | rfl <;> simp at hb <;> omega
    · split at h
      · simp only [List.mem_cons, List.not_mem_nil, or_false] at h
        rcases h with rfl | rfl | rfl <;> simp at hb <;> omega
      · simp only [List.mem_cons, List.not_mem_nil, or_false] at h
        rcases h with rfl | rfl | rfl | rfl <;> simp at hb <;> omega

theorem utf8EncodeChar_of_toNat {b : UInt8} {c : Char} (hb : b.toNat < 128)
    (h : c.toNat = b.toNat) : String.utf8EncodeChar c = [b] := by
  have hc : c.val.toNat = b.toNat := h
  unfold String.utf8EncodeChar
  rw [hc, if_pos (Nat.le_of_lt_succ hb), UInt8.ofNat_toNat]

theorem getElem?_utf8_eq_some_iff {b : UInt8} {c : Char} (hb : b.toNat < 128)
    (hc : c.toNat = b.toNat) {cs : List Char} {i : Nat} :
    (utf8 cs)[i]? = some b ↔
      ∃ before after, cs = before ++ c :: after ∧ (utf8 before).length = i := by
  constructor
  · intro h
    induction cs generalizing i with
    | nil => simp at h
    | cons d cs ih =>
      rw [utf8_cons] at h
      obtain hlt | hge := Nat.lt_or_ge i (String.utf8EncodeChar d).length
      · rw [List.getElem?_append_left hlt] at h
        obtain ⟨hd, hdb⟩ := utf8EncodeChar_of_mem hb (List.mem_of_getElem? h)
        obtain rfl : c = d := Char.toNat_inj.1 (hc.trans hdb.symm)
        rw [hd, List.length_singleton] at hlt
        exact ⟨[], cs, rfl, by simp; omega⟩
      · rw [List.getElem?_append_right hge] at h
        obtain ⟨before, after, rfl, hlength⟩ := ih h
        refine ⟨d :: before, after, rfl, ?_⟩
        rw [utf8_cons, List.length_append, hlength]
        omega
  · rintro ⟨before, after, rfl, rfl⟩
    rw [utf8_append, utf8_cons, utf8EncodeChar_of_toNat hb hc]
    simp

theorem isValid_length_utf8 {path : String} {front back : List Char}
    (h : path.toList = front ++ back) :
    (⟨(utf8 front).length⟩ : String.Pos.Raw).IsValid path := by
  apply String.Pos.Raw.isValid_iff_exists_append.2
  refine ⟨String.ofList front, String.ofList back, ?_, ?_⟩
  · rw [← String.toList_inj, h, String.toList_append, String.toList_ofList, String.toList_ofList]
  · rw [length_utf8]
    rfl

namespace Segment

def span (s : Segment) : Nat × Nat :=
  let start := (utf8 s.before).length
  (start, start + 1 + (utf8 s.inside).length)

def innermostSpan? (path : String) : Option (Nat × Nat) := (innermost? path.toList).map span

def opening : UInt8 := 0x7b

def closing : UInt8 := 0x7d

/-- Two positions hold a pair of braces, with some bytes and no brace between them. -/
structure Spans (bytes : List UInt8) (start stop : Nat) : Prop where
  opens : bytes[start]? = some opening
  closes : bytes[stop]? = some closing
  apart : start + 1 < stop
  plain : ∀ i, start < i → i < stop → bytes[i]? ≠ some opening ∧ bytes[i]? ≠ some closing

/-- One pass over the bytes from a position on. The last opening brace is remembered until a closing
one comes. -/
def scanFrom (start? : Option Nat) (pos : Nat) : List UInt8 → Option (Nat × Nat)
  | [] => none
  | b :: bytes =>
    if b = opening then scanFrom (some pos) (pos + 1) bytes
    else if b = closing then
      match start? with
      | some start =>
        if start + 1 < pos then some (start, pos) else scanFrom none (pos + 1) bytes
      | none => scanFrom none (pos + 1) bytes
    else scanFrom start? (pos + 1) bytes

variable {bytes : List UInt8} {start stop pos : Nat} {start? : Option Nat} {cs : List Char}

/-! Pairs of braces among the bytes are segments of the text. -/

theorem opening_iff {i : Nat} : (utf8 cs)[i]? = some opening ↔
    ∃ before after, cs = before ++ '\x7b' :: after ∧ (utf8 before).length = i :=
  getElem?_utf8_eq_some_iff (by decide) rfl

theorem closing_iff {i : Nat} : (utf8 cs)[i]? = some closing ↔
    ∃ before after, cs = before ++ '\x7d' :: after ∧ (utf8 before).length = i :=
  getElem?_utf8_eq_some_iff (by decide) rfl

theorem getElem?_utf8_behind (before rest : List Char) (i : Nat) :
    (utf8 (before ++ '\x7b' :: rest))[(utf8 before).length + 1 + i]? = (utf8 rest)[i]? := by
  have hbrace : String.utf8EncodeChar '\x7b' = [opening] :=
    utf8EncodeChar_of_toNat (by decide) rfl
  rw [utf8_append, utf8_cons, hbrace, List.getElem?_append_right (by omega), List.singleton_append]
  have hindex : (utf8 before).length + 1 + i - (utf8 before).length = i + 1 := by omega
  rw [hindex, List.getElem?_cons_succ]

theorem plain_iff : (∀ c ∈ cs, isBrace c = false) ↔
    ∀ i : Nat, (utf8 cs)[i]? ≠ some opening ∧ (utf8 cs)[i]? ≠ some closing := by
  simp only [ne_eq, opening_iff, closing_iff]
  constructor
  · intro h i
    constructor
    · rintro ⟨before, after, rfl, -⟩
      exact absurd (h '\x7b' (by simp)) (by decide)
    · rintro ⟨before, after, rfl, -⟩
      exact absurd (h '\x7d' (by simp)) (by decide)
  · intro h c hc
    obtain ⟨before, after, rfl⟩ := List.append_of_mem hc
    obtain ⟨hopening, hclosing⟩ := h (utf8 before).length
    have hne : c ≠ '\x7b' ∧ c ≠ '\x7d' := by
      constructor
      · rintro rfl
        exact hopening ⟨before, after, rfl, rfl⟩
      · rintro rfl
        exact hclosing ⟨before, after, rfl, rfl⟩
    simp [isBrace, hne]

theorem CutFrom.spans {s : Segment} (h : s.CutFrom cs) : Spans (utf8 cs) s.span.1 s.span.2 := by
  have hcs : cs = s.before ++ '\x7b' :: (s.inside ++ '\x7d' :: s.after) := by
    rw [h.eq_append]
    simp
  have hinside := length_utf8_pos h.inside_ne_nil
  have hbehind := getElem?_utf8_behind s.before (s.inside ++ '\x7d' :: s.after)
  rw [← hcs] at hbehind
  refine ⟨opening_iff.2 ⟨_, _, hcs, rfl⟩, ?_, by simp only [span]; omega, fun i hlow hhigh => ?_⟩
  · exact (hbehind _).trans (closing_iff.2 ⟨s.inside, s.after, rfl, rfl⟩)
  · simp only [span] at hlow hhigh
    obtain ⟨j, rfl⟩ := Nat.exists_eq_add_of_le hlow
    rw [hbehind, utf8_append, List.getElem?_append_left (by omega)]
    exact plain_iff.1 h.inside_plain j

theorem exists_cutFrom_of_spans (h : Spans (utf8 cs) start stop) :
    ∃ s : Segment, s.CutFrom cs ∧ s.span = (start, stop) := by
  obtain ⟨before, rest, rfl, rfl⟩ := opening_iff.1 h.opens
  obtain ⟨j, rfl⟩ := Nat.exists_eq_add_of_lt h.apart
  have hcloses := h.closes
  have hstop : (utf8 before).length + 1 + j + 1 = (utf8 before).length + 1 + (j + 1) := rfl
  rw [hstop, getElem?_utf8_behind] at hcloses
  obtain ⟨inside, after, rfl, hinside⟩ := closing_iff.1 hcloses
  refine ⟨⟨before, inside, after⟩, ⟨by simp, ?_, ?_⟩, by simp only [span, hinside, hstop]⟩
  · rintro rfl
    simp at hinside
  · apply plain_iff.2
    intro i
    obtain hlt | hge := Nat.lt_or_ge i (utf8 inside).length
    · have hplain := h.plain ((utf8 before).length + 1 + i) (by omega) (by omega)
      rw [getElem?_utf8_behind, utf8_append, List.getElem?_append_left hlt] at hplain
      exact hplain
    · simp [List.getElem?_eq_none hge]

/-! The search finds the segment that starts first. -/

theorem before_of_atHead? {s : Segment} (h : atHead? cs = some s) : s.before = [] := by
  unfold atHead? at h
  split at h
  · split at h
    · rw [← Option.some.inj h]
    · contradiction
  · contradiction

theorem prefix_before_of_innermost? {s t : Segment} (h : innermost? cs = some s)
    (ht : t.CutFrom cs) : s.before <+: t.before := by
  fun_induction innermost? cs generalizing s t with
  | case1 => contradiction
  | case2 c cs found hat =>
    rw [before_of_atHead? (hat.trans h)]
    exact List.nil_prefix
  | case3 c cs hat ih =>
    obtain ⟨u, hu, rfl⟩ := Option.map_eq_some_iff.1 h
    obtain ⟨happend, hne, hplain⟩ := ht
    cases hbefore : t.before with
    | nil =>
      rw [hbefore, List.nil_append, List.cons_append] at happend
      rw [happend, atHead?_of_plain hne hplain] at hat
      contradiction
    | cons d before =>
      rw [hbefore, List.cons_append, List.cons_append] at happend
      obtain ⟨rfl, hcs⟩ := List.cons.inj happend
      have htail : CutFrom ⟨before, t.inside, t.after⟩ cs := ⟨hcs, hne, hplain⟩
      exact List.cons_prefix_cons.2 ⟨rfl, ih hu htail⟩

inductive Finds (bytes : List UInt8) : Option (Nat × Nat) → Prop
  | found {start stop : Nat} : Spans bytes start stop →
      (∀ first last, Spans bytes first last → start ≤ first) → Finds bytes (some (start, stop))
  | nothing : (∀ start stop, ¬Spans bytes start stop) → Finds bytes none

theorem Spans.eq_stop {last : Nat} (h : Spans bytes start stop) (h' : Spans bytes start last) :
    stop = last := by
  have hstart := h.apart
  have hstart' := h'.apart
  obtain hlt | heq | hgt := Nat.lt_trichotomy stop last
  · exact absurd h.closes (h'.plain stop (by omega) hlt).2
  · exact heq
  · exact absurd h'.closes (h.plain last (by omega) hgt).2

theorem Finds.unique {r r' : Option (Nat × Nat)} (h : Finds bytes r) (h' : Finds bytes r') :
    r = r' := by
  cases h with
  | found hspans hfirst =>
    cases h' with
    | found hspans' hfirst' =>
      obtain rfl := Nat.le_antisymm (hfirst _ _ hspans') (hfirst' _ _ hspans)
      rw [hspans.eq_stop hspans']
    | nothing hnone => exact absurd hspans (hnone _ _)
  | nothing hnone =>
    cases h' with
    | found hspans' => exact absurd hspans' (hnone _ _)
    | nothing => rfl

theorem Finds.eq_some_iff {r : Option (Nat × Nat)} (h : Finds bytes r) :
    r = some (start, stop) ↔
      Spans bytes start stop ∧ ∀ first last, Spans bytes first last → start ≤ first := by
  constructor
  · rintro rfl
    cases h with
    | found hspans hfirst => exact ⟨hspans, hfirst⟩
  · rintro ⟨hspans, hfirst⟩
    exact h.unique (.found hspans hfirst)

theorem Finds.eq_none_iff {r : Option (Nat × Nat)} (h : Finds bytes r) :
    r = none ↔ ∀ start stop, ¬Spans bytes start stop := by
  constructor
  · rintro rfl
    cases h with
    | nothing hnone => exact hnone
  · exact fun hnone => h.unique (.nothing hnone)

theorem finds_innermostSpan? (path : String) :
    Finds (utf8 path.toList) (innermostSpan? path) := by
  unfold innermostSpan?
  cases h : innermost? path.toList with
  | none =>
    refine .nothing fun start stop hspans => ?_
    obtain ⟨s, hs, -⟩ := exists_cutFrom_of_spans hspans
    exact innermost?_eq_none_iff.1 h s hs
  | some s =>
    refine .found (cutFrom_of_innermost? h).spans fun first last hspans => ?_
    obtain ⟨t, ht, hspan⟩ := exists_cutFrom_of_spans hspans
    obtain ⟨more, hmore⟩ := prefix_before_of_innermost? h ht
    obtain ⟨rfl, -⟩ := Prod.mk.inj hspan
    simp only [← hmore, utf8_append, List.length_append]
    omega

/-! What one pass remembers. -/

/-- What is known when the bytes in front of a position were read: no pair was closed there, and of
the opening braces there only the remembered one can belong to a pair. -/
structure Remembers (bytes : List UInt8) (pos : Nat) (start? : Option Nat) : Prop where
  unclosed : ∀ start stop, Spans bytes start stop → pos ≤ stop
  known : ∀ start stop, Spans bytes start stop → start < pos → start? = some start
  opened : ∀ start, start? = some start → start < pos ∧ bytes[start]? = some opening ∧
    ∀ i, start < i → i < pos → bytes[i]? ≠ some opening ∧ bytes[i]? ≠ some closing

theorem remembers_zero (bytes : List UInt8) : Remembers bytes 0 none :=
  ⟨fun _ _ _ => Nat.zero_le _, fun _ _ _ h => absurd h (Nat.not_lt_zero _), nofun⟩

namespace Remembers

variable {b : UInt8}

theorem lt_stop (h : Remembers bytes pos start?) (hb : bytes[pos]? = some b) (hne : b ≠ closing)
    (hspans : Spans bytes start stop) : pos < stop := by
  have hle := h.unclosed start stop hspans
  have hother : pos ≠ stop := by
    rintro rfl
    exact hne (Option.some.inj (hb.symm.trans hspans.closes))
  omega

theorem opening_next (h : Remembers bytes pos start?) (hb : bytes[pos]? = some opening) :
    Remembers bytes (pos + 1) (some pos) := by
  refine ⟨fun start stop => h.lt_stop hb (by decide), fun start stop hspans hlt => ?_, ?_⟩
  · -- a pair that starts before would have this brace inside
    have hstop := h.lt_stop hb (by decide) hspans
    have hnot : ¬start < pos := fun hbefore => (hspans.plain pos hbefore hstop).1 hb
    congr 1
    omega
  · rintro start hstart
    obtain rfl := Option.some.inj hstart
    exact ⟨Nat.lt_succ_self pos, hb, fun i hlow hhigh => by omega⟩

theorem other_next (h : Remembers bytes pos start?) (hb : bytes[pos]? = some b)
    (hopening : b ≠ opening) (hclosing : b ≠ closing) : Remembers bytes (pos + 1) start? := by
  refine ⟨fun start stop => h.lt_stop hb hclosing, fun start stop hspans hlt => ?_, ?_⟩
  · have hne : start ≠ pos := by
      rintro rfl
      exact hopening (Option.some.inj (hb.symm.trans hspans.opens))
    exact h.known start stop hspans (by omega)
  · intro start hstart
    obtain ⟨hlt, hopens, hplain⟩ := h.opened start hstart
    refine ⟨by omega, hopens, fun i hlow hhigh => ?_⟩
    obtain hbefore | rfl := Nat.lt_or_eq_of_le (Nat.le_of_lt_succ hhigh)
    · exact hplain i hlow hbefore
    · rw [hb]
      exact ⟨by simpa using hopening, by simpa using hclosing⟩

theorem finds (h : Remembers bytes pos (some start)) (hb : bytes[pos]? = some closing)
    (hlong : start + 1 < pos) : Finds bytes (some (start, pos)) := by
  obtain ⟨-, hopens, hplain⟩ := h.opened start rfl
  refine .found ⟨hopens, hb, hlong, hplain⟩ fun first last hspans => ?_
  by_contra hlt
  have hknown := h.known first last hspans (by omega)
  have heq := Option.some.inj hknown
  omega

theorem closing_next (h : Remembers bytes pos start?) (hb : bytes[pos]? = some closing)
    (hshort : ∀ start, start? = some start → ¬start + 1 < pos) :
    Remembers bytes (pos + 1) none := by
  -- a pair that ends here would start at the remembered brace, without a byte between the two
  have hstop : ∀ start stop, Spans bytes start stop → pos < stop := by
    intro start stop hspans
    have hle := h.unclosed start stop hspans
    have hapart := hspans.apart
    have hne : pos ≠ stop := by
      rintro rfl
      exact hshort start (h.known start pos hspans (by omega)) hapart
    omega
  refine ⟨hstop, fun start stop hspans hlt => ?_, nofun⟩
  obtain hbefore | rfl := Nat.lt_or_eq_of_le (Nat.le_of_lt_succ hlt)
  · exact absurd hb (hspans.plain pos hbefore (hstop start stop hspans)).2
  · have heq := Option.some.inj (hb.symm.trans hspans.opens)
    contradiction

end Remembers

theorem finds_scanFrom {rest : List UInt8} (h : Remembers bytes pos start?)
    (hrest : bytes.drop pos = rest) : Finds bytes (scanFrom start? pos rest) := by
  induction rest generalizing pos start? with
  | nil =>
    refine .nothing fun start stop hspans => ?_
    have hle := h.unclosed start stop hspans
    obtain ⟨hlt, -⟩ := List.getElem?_eq_some_iff.1 hspans.closes
    have hlength := List.drop_eq_nil_iff.1 hrest
    omega
  | cons b rest ih =>
    have hb : bytes[pos]? = some b := by
      rw [← Nat.add_zero pos, ← List.getElem?_drop, hrest]
      rfl
    have hnext : bytes.drop (pos + 1) = rest := by
      rw [← List.drop_drop, hrest]
      rfl
    unfold scanFrom
    split
    · rename_i heq
      exact ih (h.opening_next (heq ▸ hb)) hnext
    · rename_i hopening
      split
      · -- a closing brace ends the search, or it forgets the opening one right before it
        rename_i heq
        have hclosing : bytes[pos]? = some closing := heq ▸ hb
        cases start? with
        | none => exact ih (h.closing_next hclosing nofun) hnext
        | some start =>
          dsimp only
          split
          · rename_i hlong
            exact h.finds hclosing hlong
          · rename_i hshort
            refine ih (h.closing_next hclosing ?_) hnext
            rintro other hother
            obtain rfl := Option.some.inj hother
            exact hshort
      · rename_i hclosing
        exact ih (h.other_next hb hopening hclosing) hnext

theorem CutFrom.isValid {path : String} {s : Segment} (h : s.CutFrom path.toList) {offset : Nat}
    (hoffset : offset ∈ [s.span.1, s.span.1 + 1, s.span.2, s.span.2 + 1]) :
    (⟨offset⟩ : String.Pos.Raw).IsValid path := by
  have hopening : utf8 ['\x7b'] = [opening] := by decide
  have hclosing : utf8 ['\x7d'] = [closing] := by decide
  obtain ⟨front, back, hsplit, rfl⟩ : ∃ front back, path.toList = front ++ back ∧
      (utf8 front).length = offset := by
    simp only [span, List.mem_cons, List.not_mem_nil, or_false] at hoffset
    rcases hoffset with rfl | rfl | rfl | rfl
    · exact ⟨s.before, '\x7b' :: s.inside ++ '\x7d' :: s.after, by simp [h.eq_append], rfl⟩
    · refine ⟨s.before ++ ['\x7b'], s.inside ++ '\x7d' :: s.after, by simp [h.eq_append], ?_⟩
      simp only [utf8_append, hopening, List.length_append, List.length_singleton]
    · refine ⟨s.before ++ ['\x7b'] ++ s.inside, '\x7d' :: s.after, by simp [h.eq_append], ?_⟩
      simp only [utf8_append, hopening, List.length_append, List.length_singleton]
    · refine ⟨s.before ++ ['\x7b'] ++ s.inside ++ ['\x7d'], s.after, by simp [h.eq_append], ?_⟩
      simp only [utf8_append, hopening, hclosing, List.length_append, List.length_singleton]
  exact isValid_length_utf8 hsplit

/-- The segment that is cut from a path, by byte positions. It is the pair of braces that starts
first among those with some text and no brace between them, one pass over the bytes finds it, and
its braces stand at boundaries of characters. -/
theorem innermostSpan?_leftmost (path : String) :
    (∀ start stop, innermostSpan? path = some (start, stop) ↔
      Spans path.toUTF8.data.toList start stop ∧
        ∀ first last, Spans path.toUTF8.data.toList first last → start ≤ first) ∧
    (innermostSpan? path = none ↔ ∀ start stop, ¬Spans path.toUTF8.data.toList start stop) ∧
    scanFrom none 0 path.toUTF8.data.toList = innermostSpan? path ∧
    ∀ start stop, innermostSpan? path = some (start, stop) →
      ∀ offset ∈ [start, start + 1, stop, stop + 1],
        (⟨offset⟩ : String.Pos.Raw).IsValid path := by
  rw [toList_toUTF8]
  have hfinds := finds_innermostSpan? path
  refine ⟨fun start stop => hfinds.eq_some_iff, hfinds.eq_none_iff, ?_, ?_⟩
  · exact (finds_scanFrom (remembers_zero _) List.drop_zero).unique hfinds
  · intro start stop hsome offset hoffset
    obtain ⟨s, hs, hspan⟩ := Option.map_eq_some_iff.1 hsome
    obtain ⟨rfl, rfl⟩ := Prod.mk.inj hspan
    exact (cutFrom_of_innermost? hs).isValid hoffset

theorem innermostSpan?_leftmost_accents :
    innermostSpan? "\x7b\x7dé\x7bé\x7d\x7b" = some (4, 7) ∧
      ∀ offset ∈ [4, 5, 7, 8],
        (⟨offset⟩ : String.Pos.Raw).IsValid "\x7b\x7dé\x7bé\x7d\x7b" := by
  have hspan : innermostSpan? "\x7b\x7dé\x7bé\x7d\x7b" = some (4, 7) := by decide
  obtain ⟨-, -, -, hvalid⟩ := innermostSpan?_leftmost "\x7b\x7dé\x7bé\x7d\x7b"
  exact ⟨hspan, hvalid 4 7 hspan⟩

end Segment

end RuleLogic
