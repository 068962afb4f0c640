import Magm.Lib.Chars
import Mathlib.Data.List.TakeWhile

/-! # Texts in Python

`str.split` with a limit and without a separator, `str.rfind`, and `int` of a text. `int` takes only
the digits of ASCII here, and white space is that of ASCII; the texts of the pipeline have no
others. -/

namespace Magm.Lib.PyStr

open Magm.Lib.Chars

/-! ### `str.split` -/

/-- `s.split(c, n)`: the pieces in front of the first `n` occurrences of `c`, and the rest. -/
def splitMax (c : Char) : ℕ → Text → List Text
  | 0, s => [s]
  | n + 1, s =>
    if c ∈ s then s.takeWhile (· ≠ c) :: splitMax c n ((s.dropWhile (· ≠ c)).drop 1) else [s]

theorem splitMax_append {c : Char} {a : Text} (h : c ∉ a) (n : ℕ) (s : Text) :
    splitMax c (n + 1) (a ++ c :: s) = a :: splitMax c n s := by
  have hpos : ∀ x ∈ a, decide (x ≠ c) = true := fun x hx =>
    decide_eq_true fun hxc => h (hxc ▸ hx)
  have htake : (a ++ c :: s).takeWhile (· ≠ c) = a := by
    rw [List.takeWhile_append_of_pos hpos, List.takeWhile_cons_of_neg (by simp), List.append_nil]
  have hdrop : (a ++ c :: s).dropWhile (· ≠ c) = c :: s := by
    rw [List.dropWhile_append_of_pos hpos, List.dropWhile_cons_of_neg (by simp)]
  rw [splitMax, if_pos (by simp), htake, hdrop]
  rfl

/-! ### `str.rfind` -/

/-- `s.rfind(c)`: the place of the last `c`, or `-1`. -/
def rfind (c : Char) : Text → ℤ
  | [] => -1
  | x :: s => if c ∈ s then rfind c s + 1 else if x = c then 0 else -1

theorem rfind_append {c : Char} {b : Text} (h : c ∉ b) :
    ∀ a : Text, rfind c (a ++ c :: b) = a.length
  | [] => by
    rw [List.nil_append, rfind, if_neg h, if_pos rfl]
    rfl
  | x :: a => by
    rw [List.cons_append, rfind, if_pos (by simp), rfind_append h a]
    rfl

/-- `s[: close + 1]` for the place `close` of the last `c`. -/
theorem take_rfind {c : Char} {b : Text} (h : c ∉ b) (a : Text) :
    (a ++ c :: b).take (rfind c (a ++ c :: b) + 1).toNat = a ++ [c] := by
  have hplace : (rfind c (a ++ c :: b) + 1).toNat = (a ++ [c]).length := by
    rw [rfind_append h, List.length_append, List.length_singleton]
    rfl
  rw [hplace, List.append_cons a c b, List.take_left]

/-- `s[close + 2 :]` for the place `close` of the last `c`. -/
theorem drop_rfind {c x : Char} {b : Text} (h : c ∉ x :: b) (a : Text) :
    (a ++ c :: x :: b).drop (rfind c (a ++ c :: x :: b) + 2).toNat = b := by
  have hplace : (rfind c (a ++ c :: x :: b) + 2).toNat = (a ++ [c, x]).length := by
    rw [rfind_append h, List.length_append]
    rfl
  have happ : a ++ c :: x :: b = (a ++ [c, x]) ++ b := by
    rw [List.append_assoc]
    rfl
  rw [hplace, happ, List.drop_left]

/-! ### `int` -/

/-- The white space `strip` takes off. -/
def isSpace (c : Char) : Bool := c = ' ' ∨ 9 ≤ c.toNat ∧ c.toNat ≤ 13 ∨ 28 ≤ c.toNat ∧ c.toNat ≤ 31

def strip (s : Text) : Text := ((s.dropWhile isSpace).reverse.dropWhile isSpace).reverse

/-- `int(s)`: a sign and digits, with single underscores between them; `none` is a `ValueError`. -/
def pyInt (s : Text) : Option ℤ :=
  let p := splitSign (strip s)
  let groups := p.2.splitOn '_'
  if ∀ g ∈ groups, g ≠ [] ∧ ∀ c ∈ g, c.isDigit = true then
    some (if p.1 then -(Nat.ofDigitChars 10 groups.flatten 0 : ℤ)
      else Nat.ofDigitChars 10 groups.flatten 0)
  else none

theorem isSpace_of_le {c : Char} (h : 33 ≤ c.toNat) : isSpace c = false := by
  have hne : c ≠ ' ' := by
    rintro rfl
    exact absurd h (by decide)
  unfold isSpace
  simp only [hne, false_or, decide_eq_false_iff_not]
  omega

theorem isSpace_of_isDigit {c : Char} (h : c.isDigit = true) : isSpace c = false := by
  simp only [Char.isDigit, Bool.and_eq_true, decide_eq_true_eq] at h
  have hlo : 48 ≤ c.toNat := h.1
  exact isSpace_of_le (by omega)

theorem dropWhile_isSpace {s : Text} (h : ∀ c ∈ s, isSpace c = false) :
    s.dropWhile isSpace = s := by
  rcases s with _ | ⟨c, s⟩
  · rfl
  · rw [List.dropWhile_cons_of_neg (by rw [h c List.mem_cons_self]; simp)]

/-- White space behind a text is taken off. -/
theorem strip_append {s tail : Text} (hs : ∀ c ∈ s, isSpace c = false)
    (htail : ∀ c ∈ tail, isSpace c = true) : strip (s ++ tail) = s := by
  have hfront : (s ++ tail).dropWhile isSpace = s ++ tail ∨ s = [] := by
    rcases s with _ | ⟨c, s⟩
    · exact Or.inr rfl
    · rw [List.cons_append, List.dropWhile_cons_of_neg (by rw [hs c List.mem_cons_self]; simp)]
      exact Or.inl rfl
  unfold strip
  rcases hfront with hfront | rfl
  · rw [hfront, List.reverse_append,
      List.dropWhile_append_of_pos fun c hc => htail c (List.mem_reverse.mp hc),
      dropWhile_isSpace fun c hc => hs c (List.mem_reverse.mp hc), List.reverse_reverse]
  · rw [List.nil_append, List.dropWhile_eq_nil_iff.mpr htail]
    rfl

theorem strip_of_forall {s : Text} (h : ∀ c ∈ s, isSpace c = false) : strip s = s := by
  have hnil : ∀ c ∈ ([] : Text), isSpace c = true := nofun
  have hstrip := strip_append h hnil
  rwa [List.append_nil] at hstrip

theorem isSpace_of_mem_dec {z : ℤ} {c : Char} (h : c ∈ dec z) : isSpace c = false := by
  rcases mem_dec h with rfl | h
  · decide
  · exact isSpace_of_isDigit h

/-- **A printed integer is read back.** -/
theorem pyInt_dec (z : ℤ) : pyInt (dec z) = some z := by
  have hdigits : ∀ c ∈ decNat z.natAbs, c.isDigit = true := fun c hc => isDigit_of_mem_decNat hc
  have hstrip : strip (dec z) = dec z := strip_of_forall fun c hc => isSpace_of_mem_dec hc
  have hgroups : (decNat z.natAbs).splitOn '_' = [decNat z.natAbs] :=
    List.splitOn_eq_singleton fun hc => absurd (hdigits _ hc) (by decide)
  have hgood : ∀ g ∈ [decNat z.natAbs], g ≠ [] ∧ ∀ c ∈ g, c.isDigit = true := by
    intro g hg
    obtain rfl := List.mem_singleton.mp hg
    exact ⟨decNat_ne_nil _, hdigits⟩
  unfold pyInt
  rw [hstrip, splitSign_dec]
  simp only [hgroups]
  rw [if_pos hgood, List.flatten_singleton, ofDigitChars_natAbs]

theorem pyInt_decNat (n : ℕ) : pyInt (decNat n) = some (n : ℤ) := by
  rw [← dec_natCast, pyInt_dec]

/-! ### `str.split` without a separator -/

/-- `s.split()`. -/
def splitSpace (s : Text) : List Text := tokens isSpace s

theorem splitSpace_of_isSpace {tail : Text} (h : ∀ c ∈ tail, isSpace c = true) :
    splitSpace tail = [] := by
  rcases tail with _ | ⟨c, tail⟩
  · rfl
  · have hnil := splitSpace_of_isSpace fun x hx => h x (List.mem_cons_of_mem c hx)
    have happ := tokens_append_sep [] tail (h c List.mem_cons_self)
    rw [tokens_nil, List.nil_append, List.nil_append] at happ
    exact happ.trans hnil

/-- Fields with a blank between them are taken apart. -/
theorem splitSpace_intercalate {tail : Text} (htail : ∀ c ∈ tail, isSpace c = true) :
    ∀ {fields : List Text}, (∀ f ∈ fields, f ≠ [] ∧ ∀ c ∈ f, isSpace c = false) →
      splitSpace ([' '].intercalate fields ++ tail) = fields
  | [], _ => splitSpace_of_isSpace htail
  | [f], h => by
    obtain ⟨hne, hf⟩ := h f List.mem_cons_self
    rw [List.intercalate_singleton]
    rcases tail with _ | ⟨c, tail⟩
    · rw [List.append_nil]
      exact tokens_of_forall hf hne
    · have hrest := splitSpace_of_isSpace fun x hx => htail x (List.mem_cons_of_mem c hx)
      unfold splitSpace at hrest ⊢
      rw [tokens_append_sep _ _ (htail c List.mem_cons_self), tokens_of_forall hf hne, hrest]
      rfl
  | f :: f' :: fields, h => by
    obtain ⟨hne, hf⟩ := h f List.mem_cons_self
    have ih := splitSpace_intercalate htail fun g hg => h g (List.mem_cons_of_mem f hg)
    unfold splitSpace at ih ⊢
    rw [List.intercalate_cons_cons, List.append_assoc, List.append_assoc, List.singleton_append,
      tokens_append_sep _ _ (by decide), tokens_of_forall hf hne, ih]
    rfl

end Magm.Lib.PyStr
