import Mathlib.Data.List.Basic
import Mathlib.Algebra.Order.Ring.Int
import Mathlib.Tactic.Cases
import Mathlib.Tactic.SplitIfs

/-! # Text as lists of characters

Text is a list of characters, one per byte of the file it stands for. The module has the operations
on text that the readers and writers share: decimal numbers (`dec`, `digits`), the text after the
first occurrence of a word (`afterFirst`), and the tokens between separators (`tokens`). -/

namespace Magm.Lib.Chars

abbrev Text := List Char

/-- Statements about the characters of a text are decided along the text. -/
instance decidableAll (p : Char → Prop) [DecidablePred p] (s : Text) : Decidable (∀ c ∈ s, p c) :=
  List.decidableBAll p s

instance decidableAny (p : Char → Prop) [DecidablePred p] (s : Text) : Decidable (∃ c ∈ s, p c) :=
  List.decidableBEx p s

/-! ### Decimal numbers -/

/-- A natural number in decimal. -/
def decNat (n : ℕ) : Text := Nat.toDigits 10 n

/-- An integer in decimal. -/
def dec (z : ℤ) : Text := if z < 0 then '-' :: decNat z.natAbs else decNat z.natAbs

/-- The number the leading digits of a text spell, if there are any. -/
def leadingNat (s : Text) : Option ℕ :=
  let ds := s.takeWhile Char.isDigit
  if ds = [] then none else some (Nat.ofDigitChars 10 ds 0)

theorem isDigit_of_mem_decNat {n : ℕ} {c : Char} (h : c ∈ decNat n) : c.isDigit = true :=
  Nat.isDigit_of_mem_toDigits (by decide) (by decide) h

theorem le_of_isAlpha {c : Char} (h : c.isAlpha = true) : 65 ≤ c.toNat := by
  rcases (Bool.or_eq_true _ _).mp h with h | h
  · exact (of_decide_eq_true h).1
  · exact le_trans (by decide : 65 ≤ 97) (of_decide_eq_true ((Bool.and_eq_true _ _).mp h).1)

theorem decNat_ne_nil (n : ℕ) : decNat n ≠ [] := Nat.toDigits_ne_nil

theorem dec_natCast (n : ℕ) : dec n = decNat n := by
  unfold dec; rw [if_neg (by omega)]; rfl

theorem dec_ne_nil (z : ℤ) : dec z ≠ [] := by
  unfold dec; split_ifs
  · simp
  · exact decNat_ne_nil _

theorem length_decNat_le {n k : ℕ} (hk : 0 < k) (h : n < 10 ^ k) : (decNat n).length ≤ k :=
  (Nat.length_toDigits_le_iff (by decide) hk).mpr h

/-- Every character of a decimal number is a digit or the minus sign. -/
theorem mem_dec {z : ℤ} {c : Char} (h : c ∈ dec z) : c = '-' ∨ c.isDigit = true := by
  unfold dec at h
  split_ifs at h
  · rcases List.mem_cons.mp h with h | h
    · exact Or.inl h
    · exact Or.inr (isDigit_of_mem_decNat h)
  · exact Or.inr (isDigit_of_mem_decNat h)

theorem takeWhile_decNat_append (n : ℕ) {rest : Text} (h : ∀ c ∈ rest.head?, c.isDigit = false) :
    (decNat n ++ rest).takeWhile Char.isDigit = decNat n := by
  rw [List.takeWhile_append_of_pos fun c hc => isDigit_of_mem_decNat hc]
  rcases rest with _ | ⟨c, rest⟩
  · simp
  · rw [List.takeWhile_cons_of_neg (by simpa using h c rfl), List.append_nil]

/-- **The digits of a number spell it**, whatever follows that is no digit. -/
theorem leadingNat_decNat (n : ℕ) {rest : Text} (h : ∀ c ∈ rest.head?, c.isDigit = false) :
    leadingNat (decNat n ++ rest) = some n := by
  unfold leadingNat
  rw [takeWhile_decNat_append n h]
  simp only [decNat_ne_nil, if_false]
  rw [decNat, Nat.ofDigitChars_ten_toDigits]

/-- The sign in front of a number, and what follows. -/
def splitSign : Text → Bool × Text
  | '-' :: s => (true, s)
  | '+' :: s => (false, s)
  | s => (false, s)

theorem splitSign_of_isDigit {c : Char} {s : Text} (h : c.isDigit = true) :
    splitSign (c :: s) = (false, c :: s) := by
  unfold splitSign
  split
  · rename_i heq; rw [List.cons.injEq] at heq; rw [heq.1] at h; exact absurd h (by decide)
  · rename_i heq; rw [List.cons.injEq] at heq; rw [heq.1] at h; exact absurd h (by decide)
  · rfl

/-- The integer a text spells from end to end. -/
def readDec (s : Text) : Option ℤ :=
  let p := splitSign s
  if p.2 ≠ [] ∧ ∀ c ∈ p.2, c.isDigit = true then
    some (if p.1 then -(Nat.ofDigitChars 10 p.2 0 : ℤ) else Nat.ofDigitChars 10 p.2 0)
  else none

/-- What is printed are the sign and the digits of the absolute value. -/
theorem splitSign_dec (z : ℤ) : splitSign (dec z) = (decide (z < 0), decNat z.natAbs) := by
  unfold dec
  by_cases hz : z < 0
  · rw [if_pos hz, decide_eq_true hz]
    rfl
  · obtain ⟨c, ds, hds⟩ := List.exists_cons_of_ne_nil (decNat_ne_nil z.natAbs)
    have hc : c.isDigit = true := isDigit_of_mem_decNat (hds ▸ List.mem_cons_self)
    rw [if_neg hz, decide_eq_false hz, hds]
    exact splitSign_of_isDigit hc

/-- The sign and the absolute value make the integer. -/
theorem ofDigitChars_natAbs (z : ℤ) :
    (if decide (z < 0) = true then -(Nat.ofDigitChars 10 (decNat z.natAbs) 0 : ℤ)
      else Nat.ofDigitChars 10 (decNat z.natAbs) 0) = z := by
  have hval : Nat.ofDigitChars 10 (decNat z.natAbs) 0 = z.natAbs := Nat.ofDigitChars_ten_toDigits
  rw [hval]
  simp only [decide_eq_true_eq]
  split_ifs <;> omega

/-- **A printed integer is read back.** -/
theorem readDec_dec (z : ℤ) : readDec (dec z) = some z := by
  have hdigits : decNat z.natAbs ≠ [] ∧ ∀ c ∈ decNat z.natAbs, c.isDigit = true :=
    ⟨decNat_ne_nil _, fun c hc => isDigit_of_mem_decNat hc⟩
  unfold readDec
  rw [splitSign_dec]
  simp only
  rw [if_pos hdigits, ofDigitChars_natAbs]

/-! ### The first occurrence of a word -/

/-- The text after the first occurrence of `pat`. -/
def afterFirst (pat : Text) : Text → Option Text
  | [] => if pat = [] then some [] else none
  | c :: s => if pat <+: c :: s then some ((c :: s).drop pat.length) else afterFirst pat s

/-- A word that ends in a character the text `b` lacks does not end in `b`. -/
theorem infix_of_infix_append {q a b : Text} {x : Char} (hx : x ∉ b)
    (h : q ++ [x] <:+: a ++ b) : q ++ [x] <:+: a := by
  obtain ⟨s, t, h⟩ := h
  rcases List.append_eq_append_iff.mp h with ⟨m, rfl, -⟩ | ⟨m, hm, rfl⟩
  · exact ⟨s, m, rfl⟩
  · rcases List.eq_nil_or_concat m with rfl | ⟨m', y, rfl⟩
    · exact ⟨s, [], by simpa using hm⟩
    · rw [List.concat_eq_append, ← List.append_assoc, ← List.append_assoc] at hm
      obtain ⟨-, hxy⟩ := List.append_inj' hm rfl
      simp only [List.cons.injEq, and_true] at hxy
      subst hxy
      simp at hx

/-- **The first occurrence**: the word `q ++ [x]` does not occur in `a`, and `x` not in `q`. -/
theorem afterFirst_append {q : Text} {x : Char} (hq : x ∉ q) (rest : Text) :
    ∀ {a : Text}, ¬ q ++ [x] <:+: a →
      afterFirst (q ++ [x]) (a ++ (q ++ [x]) ++ rest) = some rest
  | [], _ => by
    rcases h : q ++ [x] ++ rest with _ | ⟨c, s⟩
    · simp at h
    · rw [List.nil_append, h, afterFirst, if_pos ⟨rest, h⟩, ← h, List.drop_left]
  | c :: a, ha => by
    have hca : ¬ q ++ [x] <+: c :: (a ++ (q ++ [x]) ++ rest) := by
      intro hpre
      rcases Nat.lt_or_ge (c :: a).length (q ++ [x]).length with hlt | hge
      · -- the occurrence would end inside `q`
        have hlen : (q ++ [x]).length ≤ ((c :: a) ++ q).length := by
          simp only [List.length_append, List.length_cons, List.length_nil] at hlt ⊢; omega
        have hq' : (c :: a) ++ q <+: c :: (a ++ (q ++ [x]) ++ rest) := ⟨x :: rest, by simp⟩
        have hpre' : q ++ [x] <+: (c :: a) ++ q := List.prefix_of_prefix_length_le hpre hq' hlen
        exact ha (infix_of_infix_append hq hpre'.isInfix)
      · have ha' : c :: a <+: c :: (a ++ (q ++ [x]) ++ rest) := ⟨q ++ [x] ++ rest, by simp⟩
        exact ha (List.prefix_of_prefix_length_le hpre ha' hge).isInfix
    rw [List.cons_append, List.cons_append, afterFirst, if_neg hca]
    exact afterFirst_append hq rest fun h => ha (h.trans (List.suffix_cons c a).isInfix)

/-! ### Pieces -/

/-- The pieces of a text that is split at `x` have no `x`. -/
theorem notMem_of_mem_splitOn {x : Char} : ∀ {s w : Text}, w ∈ s.splitOn x → x ∉ w
  | [], w, h => by
    rw [List.splitOn_nil, List.mem_singleton] at h
    rw [h]
    exact List.not_mem_nil
  | c :: s, w, h => by
    obtain ⟨w₀, ws, hs⟩ := List.exists_cons_of_ne_nil (List.splitOn_ne_nil x s)
    have ih : ∀ w ∈ w₀ :: ws, x ∉ w := fun w hw => notMem_of_mem_splitOn (hs ▸ hw)
    rw [List.splitOn_cons_eq_if_modifyHead, hs] at h
    split_ifs at h with hc
    · rcases List.mem_cons.mp h with rfl | h
      · exact List.not_mem_nil
      · exact ih w h
    · rw [List.modifyHead_cons] at h
      rcases List.mem_cons.mp h with rfl | h
      · rw [List.mem_cons, not_or]
        exact ⟨fun hx => hc (by rw [hx]; exact beq_self_eq_true c), ih w₀ List.mem_cons_self⟩
      · exact ih w (List.mem_cons_of_mem _ h)

/-- What is joined has the characters of the pieces and the one between them. -/
theorem notMem_intercalate {x c : Char} (hx : x ≠ c) : ∀ {fs : List Text},
    (∀ f ∈ fs, x ∉ f) → x ∉ [c].intercalate fs
  | [], _ => List.not_mem_nil
  | [f], h => by
    rw [List.intercalate_singleton]
    exact h f List.mem_cons_self
  | f :: f' :: fs, h => by
    have ih := notMem_intercalate hx fun f'' hf'' => h f'' (List.mem_cons_of_mem _ hf'')
    rw [List.intercalate_cons_cons, List.mem_append, List.mem_append, not_or, not_or,
      List.mem_singleton]
    exact ⟨⟨h f List.mem_cons_self, hx⟩, ih⟩

/-! ### Tokens -/

/-- The non-empty pieces between separators. -/
def tokens (sep : Char → Bool) (s : Text) : List Text :=
  (s.splitOnP sep).filter fun t => t ≠ []

section Tokens
variable {sep : Char → Bool}

theorem tokens_append_sep (a b : Text) {c : Char} (hc : sep c = true) :
    tokens sep (a ++ c :: b) = tokens sep a ++ tokens sep b := by
  rw [tokens, List.splitOnP_append_cons a b hc, List.filter_append]; rfl

theorem tokens_of_forall {s : Text} (h : ∀ c ∈ s, sep c = false) (hs : s ≠ []) :
    tokens sep s = [s] := by
  simp [tokens, List.splitOnP_eq_singleton h, hs]

theorem tokens_cons_ne_nil {c : Char} (hc : sep c = false) (s : Text) :
    tokens sep (c :: s) ≠ [] := by
  have hword : ∀ x ∈ c :: s.takeWhile (! sep ·), sep x = false := by
    intro x hx
    rcases List.mem_cons.mp hx with rfl | hx
    · exact hc
    · have hall := List.all_eq_true.mp (List.all_takeWhile (p := (! sep ·)) (l := s)) x hx
      simpa using hall
  have hsplit : c :: s = (c :: s.takeWhile (! sep ·)) ++ s.dropWhile (! sep ·) := by
    rw [List.cons_append, List.takeWhile_append_dropWhile]
  rw [hsplit]
  rcases hd : s.dropWhile (! sep ·) with _ | ⟨y, rest⟩
  · rw [List.append_nil, tokens_of_forall hword (by simp)]
    simp
  · have hy : sep y = true := by
      have := List.head?_dropWhile_not (! sep ·) s
      rw [hd] at this
      simpa using this
    rw [tokens_append_sep _ _ hy, tokens_of_forall hword (by simp)]
    simp

/-- A text without a token is made of separators. -/
theorem tokens_eq_nil : ∀ {s : Text}, tokens sep s = [] → ∀ c ∈ s, sep c = true
  | [], _ => by simp
  | x :: s, h => by
    by_cases hx : sep x = true
    · have hs : tokens sep s = [] := by
        have happ := tokens_append_sep [] s hx
        rw [List.nil_append, h] at happ
        exact happ.symm
      intro c hc
      rcases List.mem_cons.mp hc with rfl | hc
      · exact hx
      · exact tokens_eq_nil hs c hc
    · exact absurd h (tokens_cons_ne_nil (by simpa using hx) s)

@[simp] theorem tokens_nil : tokens sep [] = [] := rfl

theorem tokens_intercalate {c : Char} (hc : sep c = true) :
    ∀ fs : List Text, tokens sep ([c].intercalate fs) = fs.flatMap (tokens sep)
  | [] => by simp
  | [f] => by simp
  | f :: f' :: fs => by
    rw [List.intercalate_cons_cons, List.append_assoc, List.singleton_append,
      tokens_append_sep _ _ hc, tokens_intercalate hc (f' :: fs)]
    simp only [List.flatMap_cons]

end Tokens

end Magm.Lib.Chars
