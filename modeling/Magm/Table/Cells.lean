import Magm.Lib.Chars
import Mathlib.Data.Char
import Mathlib.Data.List.Lex
import Mathlib.Order.WithBot

/-! # Text cells of a pandas table

Every script of the pipeline reads its input with `pandas.read_csv` and writes its output with
`to_csv`. A text field that is one of the documented missing-value tokens is read as missing, and a
missing cell is written as the empty field, itself a missing-value token. So a cell that came out of
`read_csv` survives any number of writes and reads (`ofCsv_toCsv`). -/

namespace Magm.Table.Cells

open Magm.Lib.Chars

/-- The fields `read_csv` reads as missing by default. -/
def missingTokens : List Text :=
  ["", "#N/A", "#N/A N/A", "#NA", "-1.#IND", "-1.#QNAN", "-NaN", "-nan", "1.#IND", "1.#QNAN",
    "<NA>", "N/A", "NA", "NULL", "NaN", "None", "n/a", "nan", "null"].map String.toList

instance (t : Text) : Decidable (t ∈ missingTokens) := inferInstance

/-- A text cell as `read_csv` yields it: missing, or a text that is no missing-value token. -/
@[ext] structure Cell where
  val : Option Text
  read : ∀ t ∈ val, t ∉ missingTokens
  deriving DecidableEq

namespace Cell

/-- The missing cell (`NaN`). -/
def missing : Cell := ⟨none, by simp⟩

/-- The cell of a text that is no missing-value token. -/
def ofText (t : Text) (h : t ∉ missingTokens) : Cell := ⟨some t, by simpa using h⟩

/-- A field as `read_csv` reads it. -/
def ofCsv (t : Text) : Cell :=
  if h : t ∈ missingTokens then missing else ofText t h

/-- A cell as `to_csv` writes it, before quoting. -/
def toCsv (c : Cell) : Text := c.val.getD []

/-- The cell inside an f-string. -/
def str (c : Cell) : Text := c.val.getD "nan".toList

/-- The place of a cell in a sorted column, where missing cells are last. -/
def sortKey (c : Cell) : WithTop Text := c.val

theorem ofCsv_of_mem {t : Text} (h : t ∈ missingTokens) : ofCsv t = missing := by
  unfold ofCsv; rw [dif_pos h]

theorem ofCsv_of_notMem {t : Text} (h : t ∉ missingTokens) : (ofCsv t).val = some t := by
  unfold ofCsv; rw [dif_neg h]; rfl

@[simp] theorem toCsv_missing : missing.toCsv = [] := rfl

theorem nil_mem_missingTokens : [] ∈ missingTokens := by decide

/-- **Writing a cell and reading it back gives the cell.** -/
@[simp] theorem ofCsv_toCsv (c : Cell) : ofCsv c.toCsv = c := by
  obtain ⟨_ | t, h⟩ := c
  · exact ofCsv_of_mem nil_mem_missingTokens
  · have ht : t ∉ missingTokens := h t rfl
    ext1
    exact ofCsv_of_notMem ht

end Cell

/-- Rows that are read one by one. -/
theorem mapM_eq_some_iff {α β : Type*} {f : α → Option β} : ∀ {l : List α} {l' : List β},
    l.mapM f = some l' ↔ l.map f = l'.map some
  | [], [] => by simp
  | [], b :: l' => by simp
  | a :: l, [] => by
    rcases ha : f a with _ | b
    · simp [List.mapM_cons, ha]
    · rcases hl : l.mapM f with _ | bs <;> simp [List.mapM_cons, ha, hl]
  | a :: l, b :: l' => by
    have ih : l.mapM f = some l' ↔ l.map f = l'.map some := mapM_eq_some_iff
    rw [List.map_cons, List.map_cons, List.cons.injEq, ← ih]
    rcases ha : f a with _ | b'
    · simp [List.mapM_cons, ha]
    · rcases hl : l.mapM f with _ | bs <;> simp [List.mapM_cons, ha, hl]

end Magm.Table.Cells
