import Magm.Lib.BoundedMap
import Magm.Lib.Stdio

/-! # The loader: `load_plan_csv`

`load_plan_csv` of `magm_scx.c` reads a plan line by line into a buffer of 4096 characters, takes
the TID and the CPU of every row from the columns the header names, and writes them to the map
`target_cpu_by_tid`; a row counts once the map has taken it. The maps are reached through system
calls that can fail, so they are a parameter (`MapCalls`); `mapCalls` are the maps of
`magm_scx.bpf.c`. The counter `loaded` is an unbounded number here: a plan of `2 ^ 31` rows would
overflow the `int` of the source. -/

namespace Magm.Scx.Loader

open Magm.Lib.Chars Magm.Lib.Stdio Magm.Lib.BoundedMap

/-! ### Machine integers -/

/-- The value a 64-bit `long` has as an `int`. -/
def toInt (x : ℤ) : ℤ := Int.bmod x (2 ^ 32)

/-- The value an `int` has as an `unsigned int`. -/
def toUnsigned (x : ℤ) : ℕ := (x % 2 ^ 32).toNat

theorem toInt_of_lt {n : ℕ} (h : n < 2 ^ 31) : toInt n = n := by
  unfold toInt; exact Int.bmod_eq_of_le (by omega) (by omega)

theorem toUnsigned_of_lt {n : ℕ} (h : n < 2 ^ 32) : toUnsigned n = n := by
  unfold toUnsigned; omega

/-- `parse_int`: `none` leaves the target as it was. -/
def parseInt (text : Text) : Option ℤ :=
  (strtol text).bind fun out => if -2 ^ 63 ≤ out ∧ out < 2 ^ 63 then some (toInt out) else none

/-- **A printed number in the range of an `int` is read back.** -/
theorem parseInt_decNat {n : ℕ} (hn : n < 2 ^ 31) {rest : Text}
    (h : ∀ c ∈ rest.head?, c.isDigit = false) : parseInt (decNat n ++ rest) = some (n : ℤ) := by
  unfold parseInt
  rw [strtol_decNat n h, Option.bind_some, if_pos (by omega), toInt_of_lt hn]

/-! ### Rows -/

/-- The separators of `strtok_r(line, ",\n", ...)`. -/
def delim : Text := [',', '\n']

/-- One turn of the loop over the fields of the header. -/
def headerField (cols : Option ℕ × Option ℕ) (f : Text × ℕ) : Option ℕ × Option ℕ :=
  if f.1 = "thread_key".toList then (some f.2, cols.2)
  else if f.1 = "target_cpu".toList then (cols.1, some f.2)
  else cols

/-- The columns of `thread_key` and `target_cpu`; a later column of the same name wins. -/
def headerCols (line : Text) : Option ℕ × Option ℕ :=
  (strtokR delim line).zipIdx.foldl headerField (none, none)

/-- The number after `pid=` in a field. -/
def tidOf (field : Text) : Option ℤ := (afterFirst "pid=".toList field).bind parseInt

/-- One turn of the loop over the fields of a row. -/
def readField (threadKeyCol targetCpuCol : ℕ) (v : ℤ × ℤ) (f : Text × ℕ) : ℤ × ℤ :=
  if f.2 = threadKeyCol then ((tidOf f.1).getD v.1, v.2)
  else if f.2 = targetCpuCol then (v.1, (parseInt f.1).getD v.2)
  else v

/-- `tid` and `target_cpu` of a row. -/
def readRow (threadKeyCol targetCpuCol : ℕ) (line : Text) : ℤ × ℤ :=
  (strtokR delim line).zipIdx.foldl (readField threadKeyCol targetCpuCol) (-1, -1)

/-- The key and the value of a row with `tid > 0 && target_cpu >= 0`. -/
def goodRow (threadKeyCol targetCpuCol : ℕ) (line : Text) : Option (ℕ × ℕ) :=
  let v := readRow threadKeyCol targetCpuCol line
  if 0 < v.1 ∧ 0 ≤ v.2 then some (toUnsigned v.1, toUnsigned v.2) else none

/-! ### The maps -/

/-- `struct magm_stat`. -/
structure MagmStat where
  configuredTasks : ℕ
  selectedTasks : ℕ
  fallbackTasks : ℕ
  deriving DecidableEq

/-- The system calls on the two maps, over the state `σ` of the kernel. -/
structure MapCalls (σ : Type*) where
  /-- `bpf_map_update_elem` on the target map, and whether it returned 0. -/
  updateTarget : σ → ℕ → ℕ → σ × Bool
  /-- `bpf_map_lookup_elem` on the statistics, or its `errno`. -/
  lookupStat : σ → Except ℕ MagmStat
  /-- `bpf_map_update_elem` on the statistics, with `errno` when it does not return 0. -/
  updateStat : σ → MagmStat → σ × Option ℕ

def ENOENT : ℕ := 2
def EINVAL : ℕ := 22

/-- `stat.configured_tasks++`. -/
def MagmStat.bump (stat : MagmStat) : MagmStat :=
  { stat with configuredTasks := (stat.configuredTasks + 1) % 2 ^ 32 }

section Calls
variable {σ : Type*} (calls : MapCalls σ)

/-- The second half of `bump_configured`. -/
def writeStat (s : σ) (stat : MagmStat) : σ × ℤ :=
  match calls.updateStat s stat.bump with
  | (s', some errno) => (s', -errno)
  | (s', none) => (s', 0)

def bumpConfigured (s : σ) : σ × ℤ :=
  match calls.lookupStat s with
  | .ok stat => writeStat calls s stat
  | .error errno => if errno = ENOENT then writeStat calls s ⟨0, 0, 0⟩ else (s, -errno)

/-- The body of the loop for a good row: the state, and whether the row counts. -/
def install (s : σ) (key value : ℕ) : σ × Bool :=
  match calls.updateTarget s key value with
  | (s', true) => ((bumpConfigured calls s').1, true)
  | (s', false) => (s', false)

/-- The loop over the rows. -/
def loadRows (threadKeyCol targetCpuCol : ℕ) : List Text → σ → ℕ → σ × ℕ
  | [], s, loaded => (s, loaded)
  | line :: lines, s, loaded =>
    match goodRow threadKeyCol targetCpuCol line with
    | none => loadRows threadKeyCol targetCpuCol lines s loaded
    | some (key, value) =>
      match install calls s key value with
      | (s', true) => loadRows threadKeyCol targetCpuCol lines s' (loaded + 1)
      | (s', false) => loadRows threadKeyCol targetCpuCol lines s' loaded

/-- `load_plan_csv` on the result of `fopen`: the text of the plan, or an `errno`. -/
def loadPlanCsv (file : Except ℕ Text) (s : σ) : σ × ℤ :=
  match file with
  | .error errno => (s, -errno)
  | .ok text =>
    match fgetsLines 4096 text with
    | [] => (s, -EINVAL)
    | header :: lines =>
      match headerCols header with
      | (some threadKeyCol, some targetCpuCol) =>
        let r := loadRows calls threadKeyCol targetCpuCol lines s 0
        (r.1, r.2)
      | _ => (s, -EINVAL)

end Calls

/-! ### The header -/

theorem foldl_headerField_ne {k c : ℕ} :
    ∀ (fields : List Text) (i : ℕ) (cols : Option ℕ × Option ℕ),
    (∀ j ∈ cols.1, j < i) → (∀ j ∈ cols.2, j < i) → (∀ j ∈ cols.1, j ∉ cols.2) →
      (fields.zipIdx i).foldl headerField cols = (some k, some c) → k ≠ c
  | [], i, cols, _, _, hne, h => by
    rintro rfl
    rw [List.zipIdx_nil, List.foldl_nil] at h
    exact hne k (by rw [h]; rfl) (by rw [h]; rfl)
  | f :: fields, i, cols, h1, h2, hne, h => by
    rw [List.zipIdx_cons, List.foldl_cons] at h
    refine foldl_headerField_ne fields (i + 1) _ ?_ ?_ ?_ h
    all_goals
      unfold headerField
      split_ifs
      all_goals grind

/-- **No field is both columns.** -/
theorem headerCols_ne {line : Text} {k c : ℕ} (h : headerCols line = (some k, some c)) : k ≠ c :=
  foldl_headerField_ne _ 0 _ (by simp) (by simp) (by simp) h

/-! ### What a row says -/

/-- One column of `readField`: the field at position `j`, if `read` accepts it. -/
def readColumn (j : ℕ) (read : Text → Option ℤ) (v : ℤ) (f : Text × ℕ) : ℤ :=
  if f.2 = j then (read f.1).getD v else v

theorem foldl_readColumn (j : ℕ) (read : Text → Option ℤ) : ∀ (fields : List Text) (i : ℕ) (v : ℤ),
    (fields.zipIdx i).foldl (readColumn j read) v =
      (if i ≤ j then fields[j - i]?.bind read else none).getD v
  | [], i, v => by simp
  | f :: fields, i, v => by
    rw [List.zipIdx_cons, List.foldl_cons, foldl_readColumn j read fields (i + 1), readColumn]
    rcases Nat.lt_trichotomy i j with h | rfl | h
    · rw [if_neg (show ¬ i = j by omega), if_pos (show i + 1 ≤ j by omega), if_pos (Nat.le_of_lt h),
        show j - i = j - (i + 1) + 1 by omega, List.getElem?_cons_succ]
    · rw [if_neg (show ¬ i + 1 ≤ i by omega), if_pos le_rfl, if_pos rfl, Nat.sub_self]
      rfl
    · rw [if_neg (show ¬ i = j by omega), if_neg (show ¬ i + 1 ≤ j by omega),
        if_neg (show ¬ i ≤ j by omega)]

theorem readField_eq {k c : ℕ} (hkc : k ≠ c) (v : ℤ × ℤ) (f : Text × ℕ) :
    readField k c v f = (readColumn k tidOf v.1 f, readColumn c parseInt v.2 f) := by
  unfold readField readColumn
  by_cases hk : f.2 = k
  · rw [if_pos hk, if_pos hk, if_neg fun hc => hkc (hk.symm.trans hc)]
  · rw [if_neg hk, if_neg hk]
    split_ifs <;> rfl

theorem foldl_readField {k c : ℕ} (hkc : k ≠ c) : ∀ (fs : List (Text × ℕ)) (v : ℤ × ℤ),
    fs.foldl (readField k c) v =
      (fs.foldl (readColumn k tidOf) v.1, fs.foldl (readColumn c parseInt) v.2)
  | [], _ => rfl
  | f :: fs, v => by
    rw [List.foldl_cons, foldl_readField hkc fs, readField_eq hkc]
    rfl

/-- **A row is read by position.** -/
theorem readRow_eq {k c : ℕ} (hkc : k ≠ c) (line : Text) :
    readRow k c line = (((strtokR delim line)[k]?.bind tidOf).getD (-1),
      ((strtokR delim line)[c]?.bind parseInt).getD (-1)) := by
  rw [readRow, foldl_readField hkc, foldl_readColumn, foldl_readColumn]
  simp

/-! ### The loaded map -/

/-- The good rows of a plan in order; `none` when the header lacks a column. -/
def planRows (text : Text) : Option (List (ℕ × ℕ)) :=
  match fgetsLines 4096 text with
  | [] => none
  | header :: lines =>
    match headerCols header with
    | (some threadKeyCol, some targetCpuCol) =>
      some (lines.filterMap (goodRow threadKeyCol targetCpuCol))
    | _ => none

/-- A newline at the end of a line is no part of a token. -/
theorem strtokR_newline (line : Text) : strtokR delim (line ++ ['\n']) = strtokR delim line := by
  unfold strtokR
  rw [cString_append]
  split_ifs with h
  · rfl
  · rw [cString_eq_self h]
    exact (tokens_append_sep line [] (by decide)).trans (List.append_nil _)

theorem headerCols_newline (line : Text) : headerCols (line ++ ['\n']) = headerCols line := by
  unfold headerCols
  rw [strtokR_newline]

/-- The newline of the header may be read with it or not. -/
theorem headerCols_of_read {header header' : Text}
    (h : header' = header ∨ header' = header ++ ['\n']) :
    headerCols header' = headerCols header := by
  rcases h with rfl | rfl
  · rfl
  · exact headerCols_newline header

theorem goodRow_newline (k c : ℕ) (line : Text) :
    goodRow k c (line ++ ['\n']) = goodRow k c line := by
  unfold goodRow readRow
  rw [strtokR_newline]

theorem goodRow_nil (k c : ℕ) : goodRow k c [] = none := rfl

/-- **The plan by its lines**, each shorter than the buffer. -/
theorem planRows_splitOn {text header : Text} {lines : List Text}
    (hsplit : text.splitOn '\n' = header :: lines)
    (hlen : ∀ l ∈ text.splitOn '\n', l.length < 4096) :
    planRows text = match headerCols header with
      | (some k, some c) => some (lines.filterMap (goodRow k c))
      | _ => none := by
  by_cases hne : header :: lines = [[]]
  · have hjoin : ['\n'].intercalate (text.splitOn '\n') = text := List.intercalate_splitOn '\n'
    have htext : text = [] := by
      rw [← hjoin, hsplit, hne]
      rfl
    obtain ⟨rfl, rfl⟩ := List.cons.inj hne
    rw [htext]
    rfl
  · obtain ⟨header', rest, hread, hheader, hrest⟩ :=
      fgetsLines_splitOn (ℕ × ℕ) (by decide : 2 ≤ 4096) hsplit hlen hne
    unfold planRows
    rw [hread]
    simp only [headerCols_of_read hheader, hrest _ (goodRow_newline _ _) (goodRow_nil _ _)]

section Calls
variable {σ : Type*} (calls : MapCalls σ)

/-- The loop over the good rows. -/
def installAll : List (ℕ × ℕ) → σ → ℕ → σ × ℕ
  | [], s, loaded => (s, loaded)
  | p :: rows, s, loaded =>
    installAll rows (install calls s p.1 p.2).1
      (if (install calls s p.1 p.2).2 then loaded + 1 else loaded)

theorem loadRows_eq (k c : ℕ) : ∀ (lines : List Text) (s : σ) (loaded : ℕ),
    loadRows calls k c lines s loaded = installAll calls (lines.filterMap (goodRow k c)) s loaded
  | [], _, _ => rfl
  | line :: lines, s, loaded => by
    rw [loadRows]
    rcases hg : goodRow k c line with _ | ⟨key, value⟩
    · rw [List.filterMap_cons_none hg]
      exact loadRows_eq k c lines s loaded
    · rw [List.filterMap_cons_some hg, installAll]
      simp only
      rcases install calls s key value with ⟨s', _ | _⟩
      · exact loadRows_eq k c lines s' loaded
      · exact loadRows_eq k c lines s' (loaded + 1)

/-- **The loader installs the good rows in order.** -/
theorem loadPlanCsv_eq (text : Text) (s : σ) :
    loadPlanCsv calls (.ok text) s =
      match planRows text with
      | none => (s, -EINVAL)
      | some rows => ((installAll calls rows s 0).1, (installAll calls rows s 0).2) := by
  unfold loadPlanCsv planRows
  simp only
  rcases fgetsLines 4096 text with _ | ⟨header, lines⟩
  · rfl
  · rcases h : headerCols header with ⟨_ | k, _ | c⟩ <;> simp only [h, loadRows_eq]

end Calls

/-- The maps of `magm_scx.bpf.c`. -/
structure Maps where
  targetCpuByTid : Bounded ℕ ℕ 65536
  stats : MagmStat

/-- The maps when the skeleton has been loaded. -/
def Maps.initial : Maps := ⟨Bounded.empty, ⟨0, 0, 0⟩⟩

/-- System calls that fail only on a full map. -/
def mapCalls : MapCalls Maps where
  updateTarget s key value :=
    match s.targetCpuByTid.update key value with
    | some m => ({ s with targetCpuByTid := m }, true)
    | none => (s, false)
  lookupStat s := .ok s.stats
  updateStat s stat := ({ s with stats := stat }, none)

theorem install_targets (s : Maps) (key value : ℕ) :
    (install mapCalls s key value).1.targetCpuByTid =
      (s.targetCpuByTid.update key value).getD s.targetCpuByTid := by
  unfold install mapCalls
  simp only
  rcases s.targetCpuByTid.update key value with _ | m <;> rfl

theorem installAll_targets : ∀ (rows : List (ℕ × ℕ)) (s : Maps) (loaded : ℕ),
    (installAll mapCalls rows s loaded).1.targetCpuByTid = s.targetCpuByTid.updateAll rows
  | [], _, _ => rfl
  | p :: rows, s, loaded => by
    rw [installAll, installAll_targets rows, install_targets, Bounded.updateAll]

/-- The map `target_cpu_by_tid` after loading a plan. -/
def loadedMap (text : Text) : Bounded ℕ ℕ 65536 :=
  (loadPlanCsv mapCalls (.ok text) Maps.initial).1.targetCpuByTid

/-- The CPU a plan gives a TID: that of its last good row, if the map has room for the TID. -/
def planCpu (rows : List (ℕ × ℕ)) (tid : ℕ) : Option ℕ :=
  if Admits 65536 (rows.map Prod.fst) tid then lastVal tid rows else none

/-- **The loaded map** gives every TID the CPU of the plan. -/
theorem lookup_loadedMap {text : Text} {rows : List (ℕ × ℕ)} (h : planRows text = some rows)
    (tid : ℕ) : (loadedMap text).lookup tid = planCpu rows tid := by
  unfold loadedMap planCpu
  rw [loadPlanCsv_eq, h]
  simp only
  rw [installAll_targets, Maps.initial, Bounded.lookup_updateAll]

end Magm.Scx.Loader
