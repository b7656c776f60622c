import Mathlib.Data.List.Basic
import Mathlib.Data.List.TakeWhile
import Mathlib.Logic.Function.Defs
import Packrat.Text.Quoted

/-!
# What quoted forms show

A printable character stands for itself between quotes, unless it is the quote or a backslash.
Whatever a character is shown as can be read back, whatever comes after it. So no two
characters have one form, and no two texts have.

- `isPrintable_of_ascii`: the characters from the space to the tilde are printable;
- `escape_of_printable`, `char_of_printable`, `text_of_printable`: what stands for itself;
- `ofHex_toDigits`: the value of a code point in hexadecimal;
- `unescape`, `unescape_escape`: the first character that is shown, read back;
- `char_injective`, `text_injective`: the forms tell characters and texts apart.
-/

namespace Packrat.Quoted

open List

variable {quote c : Char}

/-! ## Printable characters -/

theorem isPrintable_of_ascii (hLow : 0x20 ≤ c.toNat) (hHigh : c.toNat ≤ 0x7E) :
    Printable.isPrintable c := by
  simp only [Printable.isPrintable, hLow, hHigh, decide_true, Bool.and_self, Bool.true_or]

theorem escape_of_printable (hPrintable : Printable.isPrintable c) (hQuote : c ≠ quote)
    (hBackslash : c ≠ '\\') : escape quote c = c.toString := by
  have hNe : ∀ x, ¬Printable.isPrintable x → c ≠ x := fun x hx h => hx (h ▸ hPrintable)
  unfold escape
  rw [if_neg (hNe '\x00' (by decide)), if_neg (hNe '\t' (by decide)),
    if_neg (hNe '\n' (by decide)), if_neg (hNe '\r' (by decide)), if_neg hBackslash,
    if_neg hQuote, if_pos hPrintable]

theorem char_of_printable (hPrintable : Printable.isPrintable c) (hQuote : c ≠ '\x27')
    (hBackslash : c ≠ '\\') : char c = "\x27" ++ c.toString ++ "\x27" := by
  rw [char, escape_of_printable hPrintable hQuote hBackslash]

theorem foldl_escape (chars : List Char) (shown : String) :
    (chars.foldl (fun shown c => shown ++ escape '\x22' c) shown).toList =
      shown.toList ++ chars.flatMap fun c => (escape '\x22' c).toList := by
  induction chars generalizing shown with
  | nil => simp
  | cons c chars ih => simp [ih]

theorem toList_text (s : String) : (text s).toList =
    '\x22' :: (s.toList.flatMap fun c => (escape '\x22' c).toList) ++ ['\x22'] := by
  simp [text, String.foldl_eq_foldl_toList, foldl_escape]

theorem text_of_printable {s : String}
    (h : ∀ c ∈ s.toList, Printable.isPrintable c ∧ c ≠ '\x22' ∧ c ≠ '\\') :
    text s = "\"" ++ s ++ "\"" := by
  have hShown : ∀ c ∈ s.toList, (escape '\x22' c).toList = [c] := by
    intro c hc
    obtain ⟨hPrintable, hQuote, hBackslash⟩ := h c hc
    rw [escape_of_printable hPrintable hQuote hBackslash]
    exact String.toList_singleton c
  apply String.toList_injective
  rw [toList_text, flatMap_congr hShown, flatMap_singleton']
  simp

/-! ## Code points -/

/-- The value of a lower-case hexadecimal digit. -/
def hexValue (c : Char) : Nat :=
  if c.toNat < 58 then c.toNat - 48 else c.toNat - 87

/-- The number that some hexadecimal digits stand for. -/
def ofHex (digits : List Char) : Nat :=
  digits.foldl (fun n c => 16 * n + hexValue c) 0

theorem hexValue_digitChar : ∀ n < 16, hexValue n.digitChar = n := by
  decide

theorem toDigits_of_ge {n : Nat} (h : 16 ≤ n) :
    Nat.toDigits 16 n = Nat.toDigits 16 (n / 16) ++ [(n % 16).digitChar] := by
  have hLast : n % 16 < 16 := Nat.mod_lt n (by decide)
  have hSplit := Nat.toDigits_append_toDigits (by decide) (Nat.div_pos h (by decide)) hLast
  rw [Nat.div_add_mod, Nat.toDigits_of_lt_base hLast] at hSplit
  exact hSplit.symm

/-- By induction on the number, which loses its last digit. -/
theorem ofHex_toDigits (n : Nat) : ofHex (Nat.toDigits 16 n) = n := by
  induction n using Nat.strongRecOn with
  | ind n ih =>
    rcases Nat.lt_or_ge n 16 with hLt | hGe
    · rw [Nat.toDigits_of_lt_base hLt, ofHex, foldl_cons, foldl_nil, hexValue_digitChar n hLt]
      exact Nat.zero_add n
    · have hFront := ih (n / 16) (by omega)
      unfold ofHex at hFront ⊢
      rw [toDigits_of_ge hGe, foldl_append, hFront, foldl_cons, foldl_nil,
        hexValue_digitChar _ (Nat.mod_lt n (by decide)), Nat.div_add_mod]

theorem brace_notMem_toDigits (n : Nat) : '\x7d' ∉ Nat.toDigits 16 n := by
  have hDigit : ∀ d < 16, '\x7d' ≠ Nat.digitChar d := by decide
  induction n using Nat.strongRecOn with
  | ind n ih =>
    rcases Nat.lt_or_ge n 16 with hLt | hGe
    · rw [Nat.toDigits_of_lt_base hLt, mem_singleton]
      exact hDigit n hLt
    · rw [toDigits_of_ge hGe, mem_append, mem_singleton, not_or]
      exact ⟨ih (n / 16) (by omega), hDigit _ (Nat.mod_lt n (by decide))⟩

/-! ## Reading back -/

theorem toList_escape (quote c : Char) : (escape quote c).toList =
    if c = '\x00' then ['\\', '0']
    else if c = '\t' then ['\\', 't']
    else if c = '\n' then ['\\', 'n']
    else if c = '\r' then ['\\', 'r']
    else if c = '\\' then ['\\', '\\']
    else if c = quote then ['\\', quote]
    else if Printable.isPrintable c then [c]
    else '\\' :: 'u' :: '\x7b' :: Nat.toDigits 16 c.toNat ++ ['\x7d'] := by
  simp only [escape, hex, apply_ite String.toList]
  simp

/-- The character that a letter or a mark stands for after a backslash. -/
def unmark (mark : Char) : Char :=
  if mark = '0' then '\x00'
  else if mark = 't' then '\t'
  else if mark = 'n' then '\n'
  else if mark = 'r' then '\r'
  else mark

/-- The first character that is shown, and what comes after its form. -/
def unescape : List Char → Option (Char × List Char)
  | [] => none
  | c :: rest =>
    if c = '\\' then
      match rest with
      | [] => none
      | mark :: rest =>
        if mark = 'u' then
          let digits := (rest.drop 1).takeWhile (· != '\x7d')
          some (Char.ofNat (ofHex digits), rest.drop (digits.length + 2))
        else some (unmark mark, rest)
    else some (c, rest)

theorem unescape_self (h : c ≠ '\\') (rest : List Char) :
    unescape (c :: rest) = some (c, rest) := by
  simp only [unescape, if_neg h]

theorem unescape_mark {mark : Char} (h : mark ≠ 'u') (rest : List Char) :
    unescape ('\\' :: mark :: rest) = some (unmark mark, rest) := by
  simp only [unescape, if_pos, if_neg h]

theorem unescape_codePoint (c : Char) (rest : List Char) :
    unescape ('\\' :: 'u' :: '\x7b' :: (Nat.toDigits 16 c.toNat ++ '\x7d' :: rest)) =
      some (c, rest) := by
  have hDigits : (Nat.toDigits 16 c.toNat ++ '\x7d' :: rest).takeWhile (· != '\x7d') =
      Nat.toDigits 16 c.toNat := by
    rw [takeWhile_append_of_pos, takeWhile_cons_of_neg (by decide), append_nil]
    intro x hx
    exact bne_iff_ne.mpr fun h => brace_notMem_toDigits _ (h ▸ hx)
  simp only [unescape, if_pos, drop_one, tail_cons, hDigits, ofHex_toDigits, Char.ofNat_toNat]
  simp

/-- A form is read back, whatever comes after it, if the quote stands for itself after a
backslash. -/
theorem unescape_escape (hMark : quote ≠ 'u') (hQuote : unmark quote = quote) (c : Char)
    (rest : List Char) : unescape ((escape quote c).toList ++ rest) = some (c, rest) := by
  rw [toList_escape]
  split_ifs with hNull hTab hFeed hReturn hBackslash hSame hPrintable
  · rw [hNull]
    exact unescape_mark (by decide) rest
  · rw [hTab]
    exact unescape_mark (by decide) rest
  · rw [hFeed]
    exact unescape_mark (by decide) rest
  · rw [hReturn]
    exact unescape_mark (by decide) rest
  · rw [hBackslash]
    exact unescape_mark (by decide) rest
  · have hRead := unescape_mark hMark rest
    rw [hQuote] at hRead
    rw [hSame]
    exact hRead
  · exact unescape_self hBackslash rest
  · have hFramed := unescape_codePoint c rest
    simpa only [cons_append, append_assoc, nil_append] using hFramed

/-! ## Telling apart -/

theorem char_injective : Function.Injective char := by
  intro c d h
  have hLists := congrArg String.toList h
  simp only [char, String.toList_append, append_assoc] at hLists
  have hRead := congrArg unescape (append_cancel_left hLists)
  rw [unescape_escape (by decide) (by decide), unescape_escape (by decide) (by decide)] at hRead
  exact congrArg Prod.fst (Option.some.inj hRead)

/-- By induction on the characters: the form of the first one is read back. -/
theorem flatMap_escape_injective (hMark : quote ≠ 'u') (hQuote : unmark quote = quote) :
    Function.Injective fun chars : List Char => chars.flatMap fun c => (escape quote c).toList := by
  intro chars
  induction chars with
  | nil =>
    intro others h
    cases others with
    | nil => rfl
    | cons d others =>
      have hRead := congrArg unescape h
      simp only [flatMap_cons, unescape_escape hMark hQuote] at hRead
      cases hRead
  | cons c chars ih =>
    intro others h
    have hRead := congrArg unescape h
    cases others with
    | nil =>
      simp only [flatMap_cons, unescape_escape hMark hQuote] at hRead
      cases hRead
    | cons d others =>
      simp only [flatMap_cons, unescape_escape hMark hQuote, Option.some.injEq,
        Prod.mk.injEq] at hRead
      rw [hRead.1, ih hRead.2]

theorem text_injective : Function.Injective text := by
  intro s t h
  have hLists := congrArg String.toList h
  rw [toList_text, toList_text] at hLists
  have hForms := append_cancel_right (cons.inj hLists).2
  exact String.toList_injective (flatMap_escape_injective (by decide) (by decide) hForms)

end Packrat.Quoted
