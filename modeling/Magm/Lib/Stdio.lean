import Magm.Lib.Chars
import Mathlib.Data.List.TakeWhile

/-! # Reading text the C way

`fgets` into a buffer of fixed size (`fgetsLines`), C strings (`cString`), `strtok_r` (`strtokR`)
and `strtol`. -/

namespace Magm.Lib.Stdio

open Magm.Lib.Chars

/-! ### Lines -/

/-- The results of the calls of `fgets` into a buffer of `size` characters, one of them for the
terminating NUL; `acc` is what the current call has stored, in reverse. -/
def fgetsLoop (size : ℕ) (acc : Text) : Text → List Text
  | [] => if acc = [] then [] else [acc.reverse]
  | c :: s =>
    if c = '\n' ∨ acc.length + 2 = size then (c :: acc).reverse :: fgetsLoop size [] s
    else fgetsLoop size (c :: acc) s

/-- All results of `fgets` until it returns `NULL`. -/
def fgetsLines (size : ℕ) (s : Text) : List Text := fgetsLoop size [] s

theorem fgetsLoop_line {size : ℕ} (s : Text) : ∀ {acc line : Text}, '\n' ∉ line →
    acc.length + line.length + 2 ≤ size →
      fgetsLoop size acc (line ++ '\n' :: s) =
        (acc.reverse ++ (line ++ ['\n'])) :: fgetsLoop size [] s
  | acc, [], _, _ => by simp [fgetsLoop]
  | acc, c :: line, hn, hlen => by
    rw [List.mem_cons, not_or] at hn
    rw [List.length_cons] at hlen
    have hc : ¬ (c = '\n' ∨ acc.length + 2 = size) := by
      rintro (rfl | h)
      · exact hn.1 rfl
      · omega
    rw [List.cons_append, fgetsLoop, if_neg hc,
      fgetsLoop_line s hn.2 (by rw [List.length_cons]; omega)]
    simp

/-- **Short lines are read one by one.** -/
theorem fgetsLines_lines {size : ℕ} : ∀ {ls : List Text},
    (∀ l ∈ ls, '\n' ∉ l ∧ l.length + 2 ≤ size) →
      fgetsLines size (ls.flatMap fun l => l ++ ['\n']) = ls.map fun l => l ++ ['\n']
  | [], _ => rfl
  | l :: ls, h => by
    obtain ⟨hn, hlen⟩ := h l (by simp)
    have ih := fgetsLines_lines fun l' hl' => h l' (List.mem_cons_of_mem _ hl')
    unfold fgetsLines at ih ⊢
    rw [List.flatMap_cons, List.append_assoc, List.singleton_append,
      fgetsLoop_line _ hn (by simpa using hlen), ih]
    rfl

/-- A line that fills the buffer is read without its newline. -/
theorem fgetsLoop_full {size : ℕ} (s : Text) : ∀ {acc line : Text}, '\n' ∉ line → line ≠ [] →
    acc.length + line.length + 1 = size →
      fgetsLoop size acc (line ++ s) = (acc.reverse ++ line) :: fgetsLoop size [] s
  | acc, [c], hn, _, hlen => by
    have hc : acc.length + 2 = size := by simpa using hlen
    rw [List.singleton_append, fgetsLoop, if_pos (Or.inr hc), List.reverse_cons]
  | acc, c :: c' :: line, hn, _, hlen => by
    rw [List.mem_cons, not_or] at hn
    rw [List.length_cons, List.length_cons] at hlen
    have hc : ¬ (c = '\n' ∨ acc.length + 2 = size) := by
      rintro (rfl | h)
      · exact hn.1 rfl
      · omega
    rw [List.cons_append, fgetsLoop, if_neg hc,
      fgetsLoop_full s hn.2 (by simp) (by rw [List.length_cons, List.length_cons]; omega)]
    simp

theorem fgetsLoop_last {size : ℕ} : ∀ {acc line : Text}, '\n' ∉ line →
    acc.length + line.length + 1 < size →
      fgetsLoop size acc line = if acc.reverse ++ line = [] then [] else [acc.reverse ++ line]
  | acc, [], _, _ => by simp [fgetsLoop]
  | acc, c :: line, hn, hlen => by
    rw [List.mem_cons, not_or] at hn
    rw [List.length_cons] at hlen
    have hc : ¬ (c = '\n' ∨ acc.length + 2 = size) := by
      rintro (rfl | h)
      · exact hn.1 rfl
      · omega
    rw [fgetsLoop, if_neg hc, fgetsLoop_last hn.2 (by rw [List.length_cons]; omega)]
    simp

section Line
variable {size : ℕ} {line : Text} (hn : '\n' ∉ line) (hlen : line.length < size)
include hn hlen

/-- **A line is read in one piece**, or its newline is read as a line of its own. -/
theorem fgetsLines_cons (hsize : 2 ≤ size) (s : Text) :
    fgetsLines size (line ++ '\n' :: s) = (line ++ ['\n']) :: fgetsLines size s ∨
      line ≠ [] ∧ fgetsLines size (line ++ '\n' :: s) = line :: ['\n'] :: fgetsLines size s := by
  by_cases hfit : line.length + 2 ≤ size
  · exact Or.inl (fgetsLoop_line s hn (by simpa using hfit))
  · have hfull : line.length + 1 = size := by omega
    have hne : line ≠ [] := by
      rintro rfl
      rw [List.length_nil] at hfull
      omega
    refine Or.inr ⟨hne, ?_⟩
    have hnl : fgetsLoop size [] ('\n' :: s) = ['\n'] :: fgetsLoop size [] s := by
      rw [fgetsLoop, if_pos (Or.inl rfl)]; rfl
    unfold fgetsLines
    rw [fgetsLoop_full _ hn hne (by simpa using hfull), hnl]
    rfl

/-- The last line of a text may end without a newline. -/
theorem fgetsLines_last (hne : line ≠ []) : fgetsLines size line = [line] := by
  unfold fgetsLines
  by_cases hfit : line.length + 1 < size
  · have hlast := @fgetsLoop_last size [] line hn (by simpa using hfit)
    simpa [hne] using hlast
  · have hfull : line.length + 1 = size := by omega
    have h := @fgetsLoop_full size [] [] line hn hne (by simpa using hfull)
    simpa [fgetsLoop] using h

end Line

/-- **The lines of a text as a loop sees them** that looks at each with `g`, to which a newline at
the end of a line means nothing and an empty line neither. -/
theorem fgetsLines_filterMap {β : Type*} {size : ℕ} (hsize : 2 ≤ size) {g : Text → Option β}
    (hnl : ∀ l, g (l ++ ['\n']) = g l) (hnil : g [] = none) : ∀ {lines : List Text},
    (∀ l ∈ lines, '\n' ∉ l ∧ l.length < size) →
      (fgetsLines size (['\n'].intercalate lines)).filterMap g = lines.filterMap g
  | [], _ => rfl
  | [l], h => by
    obtain ⟨hn, hlen⟩ := h l (by simp)
    rw [List.intercalate_singleton]
    by_cases hne : l = []
    · rw [hne, List.filterMap_cons_none hnil]; rfl
    · rw [fgetsLines_last hn hlen hne]
  | l :: l' :: lines, h => by
    obtain ⟨hn, hlen⟩ := h l (by simp)
    have htail : ∀ x ∈ l' :: lines, '\n' ∉ x ∧ x.length < size :=
      fun x hx => h x (List.mem_cons_of_mem _ hx)
    have ih := fgetsLines_filterMap hsize hnl hnil htail
    have hline : g ['\n'] = none := (hnl []).trans hnil
    rw [List.intercalate_cons_cons, List.append_assoc, List.singleton_append]
    rcases fgetsLines_cons hn hlen hsize (['\n'].intercalate (l' :: lines)) with hl | ⟨-, hl⟩
    · rw [hl, List.filterMap_cons, hnl, ih, List.filterMap_cons (a := l)]
    · rw [hl, List.filterMap_cons, List.filterMap_cons_none hline, ih, List.filterMap_cons (a := l)]

/-- The first line of a text that is not empty, and the others as such a loop sees them. -/
theorem fgetsLines_head (β : Type*) {size : ℕ} (hsize : 2 ≤ size) {header : Text}
    {lines : List Text} (hne : header :: lines ≠ [[]])
    (h : ∀ l ∈ header :: lines, '\n' ∉ l ∧ l.length < size) :
    ∃ header' rest, fgetsLines size (['\n'].intercalate (header :: lines)) = header' :: rest ∧
      (header' = header ∨ header' = header ++ ['\n']) ∧
      ∀ g : Text → Option β, (∀ l, g (l ++ ['\n']) = g l) → g [] = none →
        rest.filterMap g = lines.filterMap g := by
  obtain ⟨hn, hlen⟩ := h header List.mem_cons_self
  rcases lines with _ | ⟨l, lines⟩
  · refine ⟨header, [], ?_, Or.inl rfl, fun _ _ _ => rfl⟩
    rw [List.intercalate_singleton, fgetsLines_last hn hlen fun h => hne (by rw [h])]
  · have hrest := fun x hx => h x (List.mem_cons_of_mem _ hx)
    rw [List.intercalate_cons_cons, List.append_assoc, List.singleton_append]
    rcases fgetsLines_cons hn hlen hsize (['\n'].intercalate (l :: lines)) with hl | ⟨-, hl⟩
    · refine ⟨_, _, hl, Or.inr rfl, fun g hnl hnil => ?_⟩
      exact fgetsLines_filterMap hsize hnl hnil hrest
    · refine ⟨_, _, hl, Or.inl rfl, fun g hnl hnil => ?_⟩
      have hline : g ['\n'] = none := (hnl []).trans hnil
      rw [List.filterMap_cons_none hline]
      exact fgetsLines_filterMap hsize hnl hnil hrest

/-- The same of a text that is split into its lines. -/
theorem fgetsLines_splitOn (β : Type*) {size : ℕ} (hsize : 2 ≤ size) {text header : Text}
    {lines : List Text} (hsplit : text.splitOn '\n' = header :: lines)
    (hlen : ∀ l ∈ text.splitOn '\n', l.length < size) (hne : header :: lines ≠ [[]]) :
    ∃ header' rest, fgetsLines size text = header' :: rest ∧
      (header' = header ∨ header' = header ++ ['\n']) ∧
      ∀ g : Text → Option β, (∀ l, g (l ++ ['\n']) = g l) → g [] = none →
        rest.filterMap g = lines.filterMap g := by
  have htext : text = ['\n'].intercalate (header :: lines) := by
    rw [← hsplit, List.intercalate_splitOn]
  rw [htext]
  refine fgetsLines_head β hsize hne fun l hl => ?_
  rw [← hsplit] at hl
  exact ⟨notMem_of_mem_splitOn hl, hlen l hl⟩

/-! ### Strings -/

/-- What the string functions see of a buffer. -/
def cString (s : Text) : Text := s.takeWhile fun c => c ≠ '\x00'

theorem cString_eq_self {s : Text} (h : '\x00' ∉ s) : cString s = s :=
  List.takeWhile_eq_self_iff.mpr fun c hc => by simpa using fun he : c = '\x00' => h (he ▸ hc)

theorem cString_append (s t : Text) :
    cString (s ++ t) = if '\x00' ∈ s then cString s else s ++ cString t := by
  by_cases h : '\x00' ∈ s
  · have hlt : (s.takeWhile fun c => c ≠ '\x00').length ≠ s.length := fun hlen => by
      have hs := (List.takeWhile_prefix fun c => c ≠ '\x00').eq_of_length hlen
      simpa using List.takeWhile_eq_self_iff.mp hs _ h
    rw [if_pos h, cString, List.takeWhile_append, if_neg hlt]
    rfl
  · rw [if_neg h, cString, List.takeWhile_append_of_pos]
    · rfl
    · intro c hc
      simpa using fun he : c = '\x00' => h (he ▸ hc)

/-- The results of `strtok_r`. -/
def strtokR (delim : Text) (s : Text) : List Text := tokens (fun c => c ∈ delim) (cString s)

/-! ### Integers -/

def isSpace (c : Char) : Bool := c = ' ' ∨ 9 ≤ c.toNat ∧ c.toNat ≤ 13

/-- The integer `strtol` in base 10 finds at the start of a text, before it is fitted into a `long`;
`none` when there is nothing to convert. -/
def strtol (text : Text) : Option ℤ :=
  let p := splitSign (text.dropWhile isSpace)
  (leadingNat p.2).map fun n : ℕ => if p.1 then -(n : ℤ) else n

theorem isSpace_of_isDigit {c : Char} (h : c.isDigit = true) : isSpace c = false := by
  simp only [Char.isDigit, ge_iff_le, Bool.and_eq_true, decide_eq_true_eq,
    UInt32.le_iff_toNat_le] at h
  have h1 : c ≠ ' ' := by rintro rfl; exact absurd h.1 (by decide)
  have h2 : 48 ≤ c.toNat := h.1
  simp only [isSpace, h1, false_or, decide_eq_false_iff_not]
  omega

/-- **`strtol` reads back a printed number**, whatever follows that is no digit. -/
theorem strtol_decNat (n : ℕ) {rest : Text} (h : ∀ c ∈ rest.head?, c.isDigit = false) :
    strtol (decNat n ++ rest) = some (n : ℤ) := by
  obtain ⟨c, ds, hds⟩ := List.exists_cons_of_ne_nil (decNat_ne_nil n)
  have hmem : c ∈ decNat n := by rw [hds]; exact List.mem_cons_self
  have hc : c.isDigit = true := isDigit_of_mem_decNat hmem
  have hsplit : splitSign ((decNat n ++ rest).dropWhile isSpace) = (false, decNat n ++ rest) := by
    rw [hds, List.cons_append, List.dropWhile_cons_of_neg (by simp [isSpace_of_isDigit hc]),
      splitSign_of_isDigit hc]
  unfold strtol
  rw [hsplit]
  simp only [leadingNat_decNat n h, Option.map_some, Bool.false_eq_true, if_false]

end Magm.Lib.Stdio
