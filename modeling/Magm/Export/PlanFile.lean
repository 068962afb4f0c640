import Magm.Export.Selection
import Magm.Lib.Csv
import Magm.Scx.Scheduler
import Magm.Table.Names
import Mathlib.Tactic.Linarith

/-! # The plan file: `final_cpu_selection.csv`

The exporter writes the selection with `to_csv`; the loader of the scheduler splits its lines at
commas, whether these are inside quotes or not. So a thread name with a comma shifts the columns:
the loader then looks for `pid=` in a piece of the name. `spelled` is the TID that the loader takes
from a row, and `planRows_planCsv` is the plan it loads. -/

namespace Magm.Export.PlanFile

open Magm.Lib.Chars Magm.Lib.Csv Magm.Lib.Stdio Magm.Table.Cells Magm.Table.Names
open Magm.Planner.Schedule Magm.Export.Selection Magm.Scx.Loader Magm.Scx.Scheduler

/-! ### Writing the selection -/

/-- How `to_csv` prints a float: at most 24 characters, all on one line. -/
structure FloatText where
  text : ℚ → Text
  length_le : ∀ q, (text q).length ≤ 24
  noNewline : ∀ q, '\n' ∉ text q
  noNul : ∀ q, '\x00' ∉ text q

def modeText : Mode → Text
  | .CE => "CE".toList
  | .SP => "SP".toList

/-- `selection_cols`. -/
def selectionCols : List Text :=
  ["LoadType", "window_id", "mode", "physical_core", "smt_slot", "target_cpu", "selected_thread",
    "thread_key", "paired_with", "score", "rho", "n_run"].map String.toList

def selectionFields (num : FloatText) (r : SelectionRow) : List Text :=
  [r.loadType.toCsv, dec r.windowId, modeText r.mode, decNat r.physicalCore, decNat r.smtSlot,
    decNat r.targetCpu, r.selectedThread, r.threadKey.toCsv, r.pairedWith.toCsv,
    (r.score.map num.text).getD [], num.text r.rho, decNat r.nRun]

/-- `selection.to_csv(selection_path, index=False)`. -/
def selectionCsv (num : FloatText) (selection : List SelectionRow) : Text :=
  writeCsv (selectionCols :: selection.map (selectionFields num))

/-! ### Rows of a plan -/

/-- `thread_label` of a thread, whose name has been read from a file. -/
def label (t : Thread) : Text := threadLabel (Cell.ofCsv t.name.text) t.pid

/-- A row of the selection that is about a thread, with numbers in the range of the columns. -/
structure PlanRow where
  row : SelectionRow
  thread : Thread
  loadType : row.loadType.val = some thread.scene.text
  selected : row.selectedThread = label thread
  key : row.threadKey.val = some thread.key
  partner : row.pairedWith = Cell.missing ∨ ∃ t : Thread, row.pairedWith.val = some t.key
  core : row.physicalCore = row.targetCpu / 2
  slot : row.smtSlot = row.targetCpu % 2
  window_range : -2 ^ 63 ≤ row.windowId ∧ row.windowId < 2 ^ 63
  cpu_lt : row.targetCpu < 2 ^ 31
  nRun_lt : row.nRun < 2 ^ 63

namespace PlanRow

def pid (r : PlanRow) : ℕ := r.thread.pid
def targetCpu (r : PlanRow) : ℕ := r.row.targetCpu

end PlanRow

/-- The file of a plan. -/
def planCsv (num : FloatText) (plan : List PlanRow) : Text :=
  selectionCsv num (plan.map PlanRow.row)

/-! ### What the loader takes from a row -/

/-- The TID the loader finds for a thread. With a comma in the name the column `thread_key` is the
second of the pieces between the commas of the label. -/
def spelledTid (t : Thread) : Option ℤ :=
  if ',' ∈ t.name.text then (strtokR delim (writeField (label t)))[1]?.bind tidOf else some t.pid

/-- The key the loader uses for a thread, if it accepts one. -/
def spelled (t : Thread) : Option ℕ :=
  (spelledTid t).bind fun z => if 0 < z then some z.toNat else none

/-- The key and the value the loader takes from a row. -/
def spelledRow (r : PlanRow) : Option (ℕ × ℕ) := (spelled r.thread).map fun k => (k, r.targetCpu)

/-! ### The fields of a row -/

section Fields
variable {c : Char}

theorem comma_notMem_missingTokens {t : Text} (h : ',' ∈ t) : t ∉ missingTokens := by
  intro ht
  have hall : ∀ s ∈ missingTokens, ',' ∉ s := by decide
  exact hall t ht h

theorem mem_label {t : Thread} (h : c ∈ label t) :
    c ∈ t.name.text ∨ c ∈ "nan()".toList ∨ c ∈ dec t.pid := by
  unfold label threadLabel at h
  simp only [List.mem_append, List.mem_cons, List.not_mem_nil, or_false] at h
  rcases h with h | h | h | h
  · by_cases hm : t.name.text ∈ missingTokens
    · rw [Cell.ofCsv_of_mem hm] at h
      refine Or.inr (Or.inl ?_)
      have hsub : "nan".toList ⊆ "nan()".toList := by decide
      exact hsub h
    · rw [Cell.str, Cell.ofCsv_of_notMem hm] at h
      exact Or.inl h
  · exact Or.inr (Or.inl (by rw [h]; decide))
  · exact Or.inr (Or.inr h)
  · exact Or.inr (Or.inl (by rw [h]; decide))

theorem comma_mem_label (t : Thread) : ',' ∈ label t ↔ ',' ∈ t.name.text := by
  constructor
  · intro h
    rcases mem_label h with h | h | h
    · exact h
    · exact absurd h (by decide)
    · exact absurd h ((foreign_of_mem (by simp)).notMem_dec _)
  · intro h
    unfold label threadLabel
    rw [Cell.str, Cell.ofCsv_of_notMem (comma_notMem_missingTokens h)]
    simp [h]

theorem label_ne_nil (t : Thread) : label t ≠ [] := by
  unfold label threadLabel; simp

theorem length_label_le (t : Thread) : (label t).length ≤ 30 := by
  have h1 := t.name.length_le
  have h3 : (decNat t.pid).length ≤ 10 :=
    length_decNat_le (by decide) (Nat.lt_of_lt_of_le t.pid_lt (by decide))
  have hstr : (Cell.ofCsv t.name.text).str.length ≤ 15 := by
    by_cases hm : t.name.text ∈ missingTokens
    · rw [Cell.ofCsv_of_mem hm]; decide
    · rw [Cell.str, Cell.ofCsv_of_notMem hm]; exact h1
  simp only [label, threadLabel, dec_natCast, List.length_append, List.length_cons, List.length_nil]
  omega

theorem mem_modeText {m : Mode} (h : c ∈ modeText m) : c ∈ "CESP".toList := by
  have hsub : ∀ m, modeText m ⊆ "CESP".toList := by
    intro m
    cases m <;> decide
  exact hsub m h

/-- Newline and NUL are in no field. -/
theorem notMem_fields (num : FloatText) (r : PlanRow) (hc : c = '\n' ∨ c = '\x00') :
    ∀ f ∈ selectionFields num r.row, c ∉ f := by
  have hforeign : Foreign c := foreign_of_mem (by rcases hc with rfl | rfl <;> simp)
  have hname : ∀ t : Thread, c ∉ t.name.text := by
    intro t
    rcases hc with rfl | rfl
    · exact t.oneLine
    · exact t.name.noNul
  have hkey : ∀ t : Thread, c ∉ t.key := fun t h => hname t ((hforeign.mem_key t).mp h)
  have hdec := hforeign.notMem_dec
  have hnum : ∀ q, c ∉ num.text q := by
    intro q
    rcases hc with rfl | rfl
    · exact num.noNewline q
    · exact num.noNul q
  intro f hf hcf
  simp only [selectionFields, List.mem_cons, List.not_mem_nil, or_false, ← dec_natCast] at hf
  rcases hf with rfl | rfl | rfl | rfl | rfl | rfl | rfl | rfl | rfl | rfl | rfl | rfl
  · rw [Cell.toCsv, r.loadType] at hcf
    exact hforeign.scene _ hcf
  · exact hdec _ hcf
  · have hm := mem_modeText hcf
    rcases hc with rfl | rfl <;> exact absurd hm (by decide)
  · exact hdec _ hcf
  · exact hdec _ hcf
  · exact hdec _ hcf
  · rw [r.selected] at hcf
    rcases mem_label hcf with h | h | h
    · exact hname _ h
    · rcases hc with rfl | rfl <;> exact absurd h (by decide)
    · exact hdec _ h
  · rw [Cell.toCsv, r.key] at hcf
    exact hkey _ hcf
  · rcases r.partner with hp | ⟨t, ht⟩
    · rw [hp] at hcf
      simp at hcf
    · rw [Cell.toCsv, ht] at hcf
      exact hkey _ hcf
  · rcases hs : r.row.score with _ | q
    · simp [hs] at hcf
    · rw [hs] at hcf
      exact hnum q hcf
  · exact hnum _ hcf
  · exact hdec _ hcf

theorem length_decNat_le_19 {n : ℕ} (h : n < 2 ^ 63) : (decNat n).length ≤ 19 :=
  length_decNat_le (by decide) (Nat.lt_of_lt_of_le h (by decide))

theorem length_dec_le {z : ℤ} (h : -2 ^ 63 ≤ z ∧ z < 2 ^ 63) : (dec z).length ≤ 20 := by
  have hdigits : (decNat z.natAbs).length ≤ 19 := length_decNat_le (by decide) (by omega)
  unfold dec
  split_ifs
  · rw [List.length_cons]; omega
  · omega

/-- **A line of a plan fits the buffer of the loader.** -/
theorem length_line_le (num : FloatText) (r : PlanRow) :
    (writeLine (selectionFields num r.row)).length + 2 ≤ 4096 := by
  have hload : r.row.loadType.toCsv.length ≤ 255 := by
    rw [Cell.toCsv, r.loadType]; exact r.thread.scene.length_le
  have hwindow : (dec r.row.windowId).length ≤ 20 := length_dec_le r.window_range
  have hmode : (modeText r.row.mode).length ≤ 2 := by
    cases r.row.mode <;> decide
  have hcpu := r.cpu_lt
  have hcore : (decNat r.row.physicalCore).length ≤ 19 :=
    length_decNat_le_19 (by rw [r.core]; omega)
  have hslot : (decNat r.row.smtSlot).length ≤ 19 := length_decNat_le_19 (by rw [r.slot]; omega)
  have htarget : (decNat r.row.targetCpu).length ≤ 19 := length_decNat_le_19 (by omega)
  have hlabel : r.row.selectedThread.length ≤ 30 := by
    rw [r.selected]; exact length_label_le _
  have hkey : r.row.threadKey.toCsv.length ≤ 286 := by
    rw [Cell.toCsv, r.key]; exact length_key_le _
  have hpartner : r.row.pairedWith.toCsv.length ≤ 286 := by
    rcases r.partner with hp | ⟨t, ht⟩
    · rw [hp]; decide
    · rw [Cell.toCsv, ht]; exact length_key_le _
  have hscore : ((r.row.score.map num.text).getD []).length ≤ 24 := by
    rcases r.row.score with _ | q
    · exact Nat.zero_le _
    · exact num.length_le q
  have hrho := num.length_le r.row.rho
  have hrun : (decNat r.row.nRun).length ≤ 19 := length_decNat_le_19 r.nRun_lt
  have hsum : ((selectionFields num r.row).map fun f => 2 * f.length + 3).sum ≤ 4094 := by
    simp only [selectionFields, List.map_cons, List.map_nil, List.sum_cons, List.sum_nil]
    linarith
  have hline := length_writeLine_le (selectionFields num r.row)
  omega

end Fields

/-! ### The lines of the file -/

theorem fgetsLines_planCsv (num : FloatText) (plan : List PlanRow) :
    fgetsLines 4096 (planCsv num plan) = (writeLine selectionCols ++ ['\n']) ::
      plan.map fun r => writeLine (selectionFields num r.row) ++ ['\n'] := by
  have hlines : planCsv num plan = (writeLine selectionCols ::
      plan.map fun r => writeLine (selectionFields num r.row)).flatMap fun l => l ++ ['\n'] := by
    unfold planCsv selectionCsv writeCsv
    rw [List.flatMap_cons, List.flatMap_cons, List.map_map, List.flatMap_map, List.flatMap_map]
    rfl
  rw [hlines, fgetsLines_lines, List.map_cons, List.map_map]
  · rfl
  · intro l hl
    rcases List.mem_cons.mp hl with rfl | hl
    · exact ⟨by decide, by decide⟩
    · obtain ⟨r, -, rfl⟩ := List.mem_map.mp hl
      refine ⟨fun hn => ?_, length_line_le num r⟩
      obtain ⟨f, hf, hfn⟩ := mem_writeLine (by decide) (by decide) hn
      exact notMem_fields num r (Or.inl rfl) f hf hfn

/-- The pieces `strtok_r` finds in a line. -/
theorem strtokR_line {fields : List Text} (h : ∀ f ∈ fields, '\x00' ∉ f) :
    strtokR delim (writeLine fields ++ ['\n']) =
      fields.flatMap fun f => tokens (fun c => c ∈ delim) (writeField f) := by
  have hnul : '\x00' ∉ writeLine fields ++ ['\n'] := by
    intro hmem
    rcases List.mem_append.mp hmem with hmem | hmem
    · obtain ⟨f, hf, hfn⟩ := mem_writeLine (by decide) (by decide) hmem
      exact h f hf hfn
    · exact absurd hmem (by decide)
  unfold strtokR
  rw [cString_eq_self hnul, tokens_append_sep _ [] (by decide), tokens_nil, List.append_nil,
    writeLine, tokens_intercalate (by decide), List.flatMap_map]

/-- A field without commas is one piece. -/
theorem tokens_writeField {f : Text} (hne : f ≠ []) (hc : ',' ∉ f) (hn : '\n' ∉ f) :
    tokens (fun c => c ∈ delim) (writeField f) = [writeField f] := by
  refine tokens_of_forall (fun c hmem => ?_) (writeField_ne_nil hne)
  rw [decide_eq_false_iff_not]
  intro hd
  simp only [delim, List.mem_cons, List.not_mem_nil, or_false] at hd
  rcases mem_writeField hmem with h | h
  · rcases hd with rfl | rfl
    · exact hc h
    · exact hn h
  · rcases hd with rfl | rfl <;> exact absurd h (by decide)

theorem writeField_dec (z : ℤ) : writeField (dec z) = dec z :=
  writeField_of_plain fun c hc hs => by
    have hforeign : Foreign c := foreign_of_mem (by
      simp only [special, List.mem_cons, List.not_mem_nil, or_false] at hs ⊢
      tauto)
    exact hforeign.notMem_dec z hc

theorem tokens_dec (z : ℤ) : tokens (fun c => c ∈ delim) (writeField (dec z)) = [dec z] := by
  rw [tokens_writeField (dec_ne_nil z) ((foreign_of_mem (by simp)).notMem_dec z)
    ((foreign_of_mem (by simp)).notMem_dec z), writeField_dec]

theorem tokens_decNat (n : ℕ) :
    tokens (fun c => c ∈ delim) (writeField (decNat n)) = [decNat n] := by
  rw [← dec_natCast, tokens_dec]

theorem newline_notMem_label (t : Thread) : '\n' ∉ label t := by
  intro hc
  rcases mem_label hc with hc | hc | hc
  · exact t.oneLine hc
  · exact absurd hc (by decide)
  · exact (foreign_of_mem (by simp)).notMem_dec _ hc

theorem nul_notMem_label (t : Thread) : '\x00' ∉ writeField (label t) := by
  intro hc
  rcases mem_writeField hc with hc | hc
  · rcases mem_label hc with hc | hc | hc
    · exact t.name.noNul hc
    · exact absurd hc (by decide)
    · exact (foreign_of_mem (by simp)).notMem_dec _ hc
  · exact absurd hc (by decide)

theorem key_ne_nil (t : Thread) : t.key ≠ [] := by
  unfold Thread.key threadKeyText; simp

/-- A label with a comma is at least two pieces. -/
theorem pieces_label {t : Thread} (h : ',' ∈ t.name.text) :
    ∃ a b rest, strtokR delim (writeField (label t)) = a :: b :: rest := by
  have hmem := (comma_mem_label t).mpr h
  have hquoted : writeField (label t) = '"' :: (doubleQuotes (label t) ++ ['"']) :=
    if_pos ⟨',', hmem, by decide⟩
  obtain ⟨a, b, hab⟩ := List.append_of_mem (mem_doubleQuotes.mpr hmem)
  have hsplit : writeField (label t) = ('"' :: a) ++ ',' :: (b ++ ['"']) := by
    rw [hquoted, hab]
    simp
  have hne : ∀ {s : Text}, '"' ∈ s → tokens (fun c => c ∈ delim) s ≠ [] := fun hq hnil =>
    absurd (tokens_eq_nil hnil _ hq) (by decide)
  obtain ⟨x, xs, hx⟩ := List.exists_cons_of_ne_nil (hne (s := '"' :: a) (by simp))
  obtain ⟨y, ys, hy⟩ := List.exists_cons_of_ne_nil (hne (s := b ++ ['"']) (by simp))
  unfold strtokR
  rw [cString_eq_self (nul_notMem_label t), hsplit, tokens_append_sep _ _ (by decide), hx, hy]
  rcases xs with _ | ⟨x', xs⟩
  · exact ⟨x, y, ys, rfl⟩
  · exact ⟨x, x', xs ++ y :: ys, rfl⟩

/-- A thread key up to its name, and what follows. -/
def keyText (t : Thread) (rest : Text) : Text :=
  t.scene.text ++ [':'] ++ ("pid".toList ++ ['=']) ++ (decNat t.pid ++ ':' :: rest)

theorem key_eq_keyText (t : Thread) : t.key = keyText t t.name.text := by
  have hword : ":pid=".toList = [':'] ++ ("pid".toList ++ ['=']) := by decide
  unfold Thread.key threadKeyText keyText
  rw [dec_natCast, hword]
  simp only [List.append_assoc]

theorem doubleQuotes_keyText (t : Thread) (rest : Text) :
    doubleQuotes (keyText t rest) = keyText t (doubleQuotes rest) := by
  have hscene : doubleQuotes t.scene.text = t.scene.text :=
    doubleQuotes_eq_self ((foreign_of_mem (by simp)).scene t.scene)
  have hpid : doubleQuotes (decNat t.pid) = decNat t.pid := by
    rw [← dec_natCast]
    exact doubleQuotes_eq_self ((foreign_of_mem (by simp)).notMem_dec _)
  unfold keyText
  rw [doubleQuotes_append, doubleQuotes_append, doubleQuotes_append, doubleQuotes_append,
    doubleQuotes_append (decNat t.pid), hscene, hpid]
  rfl

/-- The first `pid=` of a thread key is the one in front of the pid, also behind a quote. -/
theorem tidOf_keyText (t : Thread) {pre : Text} (hpre : pre = [] ∨ pre = ['"']) (rest : Text) :
    tidOf (pre ++ keyText t rest) = some (t.pid : ℤ) := by
  have hno : ¬ "pid".toList ++ ['='] <:+: pre ++ t.scene.text ++ [':'] := by
    intro hin
    have h1 := infix_of_infix_append (b := [':']) (by decide) hin
    rcases hpre with rfl | rfl
    · exact t.scene.noPid h1
    · rcases List.infix_cons_iff.mp h1 with ⟨s, hs⟩ | h2
      · exact absurd (List.cons.inj hs).1 (by decide)
      · exact t.scene.noPid h2
  have htext : pre ++ keyText t rest =
      pre ++ t.scene.text ++ [':'] ++ ("pid".toList ++ ['=']) ++ (decNat t.pid ++ ':' :: rest) := by
    simp only [keyText, List.append_assoc]
  have hword : "pid=".toList = "pid".toList ++ ['='] := by decide
  unfold tidOf
  rw [htext, hword, afterFirst_append (by decide) _ hno, Option.bind_some]
  exact parseInt_decNat t.pid_lt (by simp)

/-- **The TID in a thread key**, as it is written. -/
theorem tidOf_key (t : Thread) : tidOf (writeField t.key) = some (t.pid : ℤ) := by
  rw [key_eq_keyText]
  unfold writeField
  split_ifs
  · rw [doubleQuotes_keyText]
    have hclose : '"' :: (keyText t (doubleQuotes t.name.text) ++ ['"']) =
        ['"'] ++ keyText t (doubleQuotes t.name.text ++ ['"']) := by
      simp only [keyText, List.append_assoc, List.cons_append, List.nil_append]
    rw [hclose]
    exact tidOf_keyText t (Or.inr rfl) _
  · exact tidOf_keyText t (Or.inl rfl) _

/-! ### The plan that is loaded -/

/-- The pieces of a line: one for each column in front of the label, then those of the others. -/
theorem strtokR_fields (num : FloatText) (r : PlanRow) :
    strtokR delim (writeLine (selectionFields num r.row) ++ ['\n']) =
      writeField r.row.loadType.toCsv :: dec r.row.windowId :: writeField (modeText r.row.mode) ::
        decNat r.row.physicalCore :: decNat r.row.smtSlot :: decNat r.row.targetCpu ::
        (tokens (fun c => c ∈ delim) (writeField r.row.selectedThread) ++
          (tokens (fun c => c ∈ delim) (writeField r.row.threadKey.toCsv) ++
            ([r.row.pairedWith.toCsv, (r.row.score.map num.text).getD [], num.text r.row.rho,
              decNat r.row.nRun].flatMap fun f =>
                tokens (fun c => c ∈ delim) (writeField f)))) := by
  have hload : tokens (fun c => c ∈ delim) (writeField r.row.loadType.toCsv) =
      [writeField r.row.loadType.toCsv] := by
    rw [Cell.toCsv, r.loadType]
    refine tokens_writeField (fun hnil => ?_) ((foreign_of_mem (by simp)).scene _)
      ((foreign_of_mem (by simp)).scene _)
    have htext : r.thread.scene.text = [] := hnil
    exact r.thread.scene.read (by rw [htext]; exact Cell.nil_mem_missingTokens)
  have hmode : tokens (fun c => c ∈ delim) (writeField (modeText r.row.mode)) =
      [writeField (modeText r.row.mode)] := by
    cases r.row.mode <;> decide
  rw [strtokR_line (notMem_fields num r (Or.inr rfl)), selectionFields]
  iterate 8 rw [List.flatMap_cons]
  rw [hload, hmode, tokens_dec, tokens_decNat, tokens_decNat, tokens_decNat]
  rfl

theorem column_targetCpu (num : FloatText) (r : PlanRow) :
    (strtokR delim (writeLine (selectionFields num r.row) ++ ['\n']))[5]? =
      some (decNat r.targetCpu) := by
  rw [strtokR_fields]
  rfl

/-- The column the loader takes for `thread_key`. -/
theorem column_threadKey (num : FloatText) (r : PlanRow) :
    (strtokR delim (writeLine (selectionFields num r.row) ++ ['\n']))[7]?.bind tidOf =
      spelledTid r.thread := by
  have hkey : r.row.threadKey.toCsv = r.thread.key := by rw [Cell.toCsv, r.key]; rfl
  rw [strtokR_fields, r.selected, hkey]
  simp only [List.getElem?_cons_succ]
  unfold spelledTid
  by_cases hname : ',' ∈ r.thread.name.text
  · -- the loader takes the second piece of the label for the key
    obtain ⟨a, b, rest, hab⟩ := pieces_label hname
    have htokens : tokens (fun c => c ∈ delim) (writeField (label r.thread)) = a :: b :: rest := by
      rw [← hab, strtokR, cString_eq_self (nul_notMem_label r.thread)]
    rw [if_pos hname, hab, htokens]
    rfl
  · have hlabel1 : tokens (fun c => c ∈ delim) (writeField (label r.thread)) =
        [writeField (label r.thread)] :=
      tokens_writeField (label_ne_nil _) (fun h => hname ((comma_mem_label _).mp h))
        (newline_notMem_label r.thread)
    have hkey1 : tokens (fun c => c ∈ delim) (writeField r.thread.key) =
        [writeField r.thread.key] :=
      tokens_writeField (key_ne_nil _)
        (fun h => hname (((foreign_of_mem (by simp)).mem_key _).mp h))
        fun h => r.thread.oneLine (((foreign_of_mem (by simp)).mem_key _).mp h)
    rw [if_neg hname, hlabel1, hkey1, List.singleton_append, List.getElem?_cons_succ,
      List.singleton_append, List.getElem?_cons_zero, Option.bind_some, tidOf_key]

theorem spelledTid_lt {t : Thread} {z : ℤ} (h : spelledTid t = some z) : z < 2 ^ 31 := by
  unfold spelledTid at h
  split_ifs at h
  · obtain ⟨text, -, htid⟩ := Option.bind_eq_some_iff.mp h
    exact tidOf_lt htid
  · have := t.pid_lt
    have := Option.some.inj h
    omega

/-- **What the loader takes from a line.** -/
theorem goodRow_line (num : FloatText) (r : PlanRow) :
    goodRow 7 5 (writeLine (selectionFields num r.row) ++ ['\n']) = spelledRow r := by
  have hparse : parseInt (decNat r.targetCpu) = some (r.targetCpu : ℤ) := by
    have h : parseInt (decNat r.targetCpu ++ []) = some (r.targetCpu : ℤ) :=
      parseInt_decNat r.cpu_lt (by simp)
    rwa [List.append_nil] at h
  unfold goodRow
  rw [readRow_eq (by decide), column_threadKey, column_targetCpu, Option.bind_some, hparse,
    Option.getD_some]
  unfold spelledRow spelled
  rcases hs : spelledTid r.thread with _ | z
  · simp
  · have hlt : r.targetCpu < 2 ^ 31 := r.cpu_lt
    have hz : z < 2 ^ 31 := spelledTid_lt hs
    simp only [Option.getD_some, Option.bind_some]
    by_cases hpos : 0 < z
    · have htid : toUnsigned z = z.toNat := by
        unfold toUnsigned
        omega
      rw [if_pos ⟨hpos, Int.natCast_nonneg _⟩, if_pos hpos, Option.map_some,
        toUnsigned_of_lt (by omega), htid]
    · rw [if_neg fun h => hpos h.1, if_neg hpos, Option.map_none]

/-- **The plan that is loaded**: for every row the TID that is spelled, and its CPU. -/
theorem planRows_planCsv (num : FloatText) (plan : List PlanRow) :
    planRows (planCsv num plan) = some (plan.filterMap spelledRow) := by
  have hheader : headerCols (writeLine selectionCols ++ ['\n']) = (some 7, some 5) := by
    decide +kernel
  unfold planRows
  rw [fgetsLines_planCsv]
  simp only [hheader, List.filterMap_map]
  exact congrArg some (List.filterMap_congr fun r _ => goodRow_line num r)

end Magm.Export.PlanFile
