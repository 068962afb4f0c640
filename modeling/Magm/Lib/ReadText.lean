import Magm.Lib.Chars

/-! # Reading a text file in Python

`read_text` of a file with the encoding UTF-8: the bytes are decoded, which can fail, and the ends
of the lines become newlines. -/

namespace Magm.Lib.ReadText

open Magm.Lib.Chars

/-- Universal newlines: a carriage return, and one with a newline behind it, is a newline. -/
def newlines : Text → Text
  | [] => []
  | '\r' :: '\n' :: s => '\n' :: newlines s
  | '\r' :: s => '\n' :: newlines s
  | c :: s => c :: newlines s

/-- `read_text(encoding="utf-8")` of a file with these bytes; `none` is a `UnicodeDecodeError`. -/
def readText (bytes : ByteArray) : Option Text :=
  bytes.utf8Decode?.map fun chars => newlines chars.toList

/-- The bytes of a text. -/
def encode (s : Text) : ByteArray := (String.ofList s).toByteArray

/-- **A text is read back** with its ends of lines. -/
theorem readText_encode (s : Text) : readText (encode s) = some (newlines s) := by
  unfold readText encode
  rw [String.toByteArray_ofList, List.utf8Decode?_utf8Encode]
  rfl

theorem newlines_cons {c : Char} (hc : c ≠ '\r') (s : Text) :
    newlines (c :: s) = c :: newlines s := by
  rw [newlines]
  · rintro s' rfl
    exact absurd rfl hc
  · exact hc

theorem newlines_return {s : Text} (hs : ∀ t, s ≠ '\n' :: t) :
    newlines ('\r' :: s) = '\n' :: newlines s := by
  rw [newlines]
  exact hs

/-- Text without a carriage return stays as it is. -/
theorem newlines_append (s : Text) : ∀ {a : Text}, '\r' ∉ a → newlines (a ++ s) = a ++ newlines s
  | [], _ => rfl
  | c :: a, h => by
    rw [List.mem_cons, not_or] at h
    rw [List.cons_append, newlines_cons (Ne.symm h.1), newlines_append s h.2, List.cons_append]

/-- A character that is no newline keeps the texts around it apart. -/
theorem newlines_append_cons {c : Char} (hc : c ≠ '\n') (s a : Text) :
    newlines (a ++ c :: s) = newlines a ++ newlines (c :: s) := by
  induction a using newlines.induct with
  | case1 => rfl
  | case2 a ih => rw [List.cons_append, List.cons_append, newlines, newlines, ih]; rfl
  | case3 a hne ih =>
    have hne' : ∀ t, a ++ c :: s ≠ '\n' :: t := by
      rcases a with _ | ⟨x, a⟩
      · exact fun t h => hc (List.cons.inj h).1
      · exact fun t h => hne a (by rw [(List.cons.inj h).1])
    rw [List.cons_append, newlines_return hne', newlines_return hne, ih, List.cons_append]
  | case4 x a _ hx ih =>
    rw [List.cons_append, newlines_cons hx, newlines_cons hx, ih, List.cons_append]

end Magm.Lib.ReadText
