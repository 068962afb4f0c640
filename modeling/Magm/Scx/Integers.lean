import Magm.Scx.LastWrite

/-! # The integers of a plan

`parse_int` checks a number against the range of a `long` and stores it in an `int`. A number that
is a `long` and no `int` loses all but its low 32 bits without an error, and what is left of it can
pass for a TID or a CPU (`Misread`). The loader takes the numbers of a plan exactly or not at all
when it has no such row (`takenExactly_iff`).

A row is what a call of `fgets` reads: a line of the plan, or a piece of a line that does not fit
the buffer. Its fields are those of `strtok_r`. -/

namespace Magm.Scx.Integers

open Magm.Lib.Chars Magm.Lib.Stdio Magm.Lib.BoundedMap Magm.Scx.Loader Magm.Scx.LastWrite

/-! ### `parse_int` -/

def IsLong (z : ℤ) : Prop := -2 ^ 63 ≤ z ∧ z < 2 ^ 63

def IsInt (z : ℤ) : Prop := -2 ^ 31 ≤ z ∧ z < 2 ^ 31

instance (z : ℤ) : Decidable (IsLong z) := by unfold IsLong; infer_instance

instance (z : ℤ) : Decidable (IsInt z) := by unfold IsInt; infer_instance

/-- `parse_int` fails, or stores the integer the text begins with. -/
def Exact (text : Text) : Prop := parseInt text = none ∨ parseInt text = strtol text

instance (text : Text) : Decidable (Exact text) := by unfold Exact; infer_instance

/-- What `parse_int` makes of the integer `strtol` finds. -/
def intOf (z : ℤ) : Option ℤ := if IsLong z then some (toInt z) else none

theorem parseInt_eq (text : Text) : parseInt text = (strtol text).bind intOf := rfl

theorem tidOf_eq (field : Text) : tidOf field = (spelledTid field).bind intOf := by
  unfold tidOf spelledTid
  rw [Option.bind_assoc]
  rfl

/-- An `int` is stored as it is, and no other number. -/
theorem toInt_eq_iff {z : ℤ} : toInt z = z ↔ IsInt z := by
  unfold toInt IsInt
  rw [Int.bmod_eq_iff (by decide)]
  omega

/-- What is stored is the low 32 bits when these are below `2 ^ 31`, and negative else. -/
theorem toInt_nonneg_iff {z v : ℤ} : toInt z = v ∧ 0 ≤ v ↔ z % 2 ^ 32 = v ∧ v < 2 ^ 31 := by
  unfold toInt
  rw [Int.bmod_eq_iff (by decide)]
  omega

/-- **When a number is taken exactly or not at all**: exactly when it is an `int` or no `long`. -/
theorem exact_iff (text : Text) :
    Exact text ↔ ∀ z, strtol text = some z → IsLong z → IsInt z := by
  unfold Exact
  rw [parseInt_eq]
  rcases strtol text with _ | z
  · exact iff_of_true (Or.inl rfl) nofun
  · rw [Option.bind_some, intOf]
    by_cases hlong : IsLong z
    · rw [if_pos hlong, Option.some_inj, toInt_eq_iff]
      constructor
      · rintro (h | h) w hw -
        · cases h
        · obtain rfl := Option.some.inj hw
          exact h
      · exact fun h => Or.inr (h z rfl hlong)
    · rw [if_neg hlong]
      refine iff_of_true (Or.inl rfl) fun w hw hw' => ?_
      obtain rfl := Option.some.inj hw
      exact absurd hw' hlong

/-! ### Rows -/

/-- The integer behind `pid=` in the field number `k` of a row. -/
def writtenTid (k : ℕ) (row : Text) : Option ℤ := (strtokR delim row)[k]?.bind spelledTid

/-- The integer in the field number `c` of a row. -/
def writtenCpu (c : ℕ) (row : Text) : Option ℤ := (strtokR delim row)[c]?.bind strtol

/-- The row writes the TID and the CPU of an entry. -/
def Writes (k c : ℕ) (row : Text) (p : ℕ × ℕ) : Prop :=
  writtenTid k row = some (p.1 : ℤ) ∧ writtenCpu c row = some (p.2 : ℤ)

instance (k c : ℕ) (row : Text) (p : ℕ × ℕ) : Decidable (Writes k c row p) := by
  unfold Writes; infer_instance

/-- The numbers get past the checks of the loader: both are a `long`, and what is left of them in 32
bits is a TID and a CPU. -/
structure Passes (z w : ℤ) : Prop where
  tid_long : IsLong z
  cpu_long : IsLong w
  tid_low : 0 < z % 2 ^ 32 ∧ z % 2 ^ 32 < 2 ^ 31
  cpu_low : w % 2 ^ 32 < 2 ^ 31

/-- The numbers pass for others. -/
structure Misread (z w : ℤ) : Prop extends Passes z w where
  wide : ¬ (IsInt z ∧ IsInt w)

theorem nonneg_intOf {o : Option ℤ} {v : ℤ} : (o.bind intOf).getD (-1) = v ∧ 0 ≤ v ↔
    ∃ z, o = some z ∧ IsLong z ∧ z % 2 ^ 32 = v ∧ v < 2 ^ 31 := by
  rcases o with _ | z
  · simp only [Option.bind_none, Option.getD_none, reduceCtorEq, false_and, exists_false, iff_false]
    omega
  · rw [Option.bind_some, intOf]
    simp only [Option.some.injEq, exists_eq_left']
    split_ifs with hlong
    · rw [Option.getD_some, toInt_nonneg_iff, and_iff_right hlong]
    · rw [Option.getD_none]
      exact iff_of_false (by omega) fun h => hlong h.1

theorem readRow_written {k c : ℕ} (hkc : k ≠ c) (row : Text) :
    readRow k c row = (((writtenTid k row).bind intOf).getD (-1),
      ((writtenCpu c row).bind intOf).getD (-1)) := by
  rw [readRow_eq hkc, writtenTid, writtenCpu, Option.bind_assoc, Option.bind_assoc]
  simp only [← tidOf_eq, ← parseInt_eq]

/-- The entry made of two numbers: what is left of them in 32 bits. -/
def lowEntry (z w : ℤ) : ℕ × ℕ := ((z % 2 ^ 32).toNat, (w % 2 ^ 32).toNat)

/-- **What the loader takes from a row**: the entry of its numbers, if they pass. -/
theorem goodRow_eq_some_iff {k c : ℕ} (hkc : k ≠ c) {row : Text} {p : ℕ × ℕ} :
    goodRow k c row = some p ↔ ∃ z ∈ writtenTid k row, ∃ w ∈ writtenCpu c row,
      Passes z w ∧ p = lowEntry z w := by
  unfold goodRow
  rw [readRow_written hkc]
  simp only
  constructor
  · intro h
    split_ifs at h with hpos
    obtain rfl := Option.some.inj h
    obtain ⟨z, hz, hzlong, hzlow, hzlt⟩ := nonneg_intOf.mp ⟨rfl, hpos.1.le⟩
    obtain ⟨w, hw, hwlong, hwlow, hwlt⟩ := nonneg_intOf.mp ⟨rfl, hpos.2⟩
    refine ⟨z, hz, w, hw, ⟨hzlong, hwlong, ⟨hzlow ▸ hpos.1, hzlow ▸ hzlt⟩, hwlow ▸ hwlt⟩, ?_⟩
    rw [toUnsigned_of_range hpos.1.le hzlt, toUnsigned_of_range hpos.2 hwlt, lowEntry, hzlow, hwlow]
  · rintro ⟨z, hz, w, hw, hpass, rfl⟩
    obtain ⟨htid, htid0⟩ := nonneg_intOf.mpr ⟨z, hz, hpass.tid_long, rfl, hpass.tid_low.2⟩
    obtain ⟨hcpu, hcpu0⟩ := nonneg_intOf.mpr ⟨w, hw, hpass.cpu_long, rfl, hpass.cpu_low⟩
    rw [htid, hcpu, if_pos ⟨hpass.tid_low.1, hcpu0⟩, toUnsigned_of_range htid0 hpass.tid_low.2,
      toUnsigned_of_range hcpu0 hpass.cpu_low, lowEntry]

instance (z w : ℤ) : Decidable (Misread z w) :=
  decidable_of_iff (IsLong z ∧ IsLong w ∧ (0 < z % 2 ^ 32 ∧ z % 2 ^ 32 < 2 ^ 31) ∧
    w % 2 ^ 32 < 2 ^ 31 ∧ ¬ (IsInt z ∧ IsInt w))
    ⟨fun h => ⟨⟨h.1, h.2.1, h.2.2.1, h.2.2.2.1⟩, h.2.2.2.2⟩,
      fun h => ⟨h.tid_long, h.cpu_long, h.tid_low, h.cpu_low, h.wide⟩⟩

/-- A row whose numbers pass for others. -/
def MisreadRow (k c : ℕ) (row : Text) : Prop :=
  ∃ z ∈ writtenTid k row, ∃ w ∈ writtenCpu c row, Misread z w

instance (k c : ℕ) (row : Text) : Decidable (MisreadRow k c row) := by
  unfold MisreadRow; infer_instance

theorem Passes.low_eq_iff {z w : ℤ} (h : Passes z w) :
    z % 2 ^ 32 = z ∧ w % 2 ^ 32 = w ↔ IsInt z ∧ IsInt w := by
  have htid := h.tid_low
  have hcpu := h.cpu_low
  unfold IsInt
  omega

theorem writes_lowEntry {k c : ℕ} {row : Text} {z w : ℤ} : Writes k c row (lowEntry z w) ↔
    z % 2 ^ 32 ∈ writtenTid k row ∧ w % 2 ^ 32 ∈ writtenCpu c row := by
  unfold Writes lowEntry
  rw [Int.toNat_of_nonneg (by omega), Int.toNat_of_nonneg (by omega)]
  rfl

/-- Numbers that pass are in their entry exactly when both are an `int`. -/
theorem Passes.writes_iff {k c : ℕ} {row : Text} {z w : ℤ} (h : Passes z w)
    (hz : z ∈ writtenTid k row) (hw : w ∈ writtenCpu c row) :
    Writes k c row (lowEntry z w) ↔ IsInt z ∧ IsInt w := by
  rw [writes_lowEntry, Option.mem_def.mp hz, Option.mem_def.mp hw, ← h.low_eq_iff]
  simp only [Option.mem_def, Option.some_inj]
  exact and_congr eq_comm eq_comm

/-- **When a row is taken exactly or not at all**: exactly when it is not misread. -/
theorem writes_iff {k c : ℕ} (hkc : k ≠ c) (row : Text) :
    (∀ p, goodRow k c row = some p → Writes k c row p) ↔ ¬ MisreadRow k c row := by
  constructor
  · rintro h ⟨z, hz, w, hw, hmis⟩
    have hgood := (goodRow_eq_some_iff hkc).mpr ⟨z, hz, w, hw, hmis.toPasses, rfl⟩
    exact hmis.wide ((hmis.toPasses.writes_iff hz hw).mp (h _ hgood))
  · intro h p hp
    obtain ⟨z, hz, w, hw, hpass, rfl⟩ := (goodRow_eq_some_iff hkc).mp hp
    rw [hpass.writes_iff hz hw]
    by_contra hwide
    exact h ⟨z, hz, w, hw, hpass, hwide⟩

/-! ### What is installed -/

/-- The columns and the rows of a plan. -/
structure PlanBody where
  threadKeyCol : ℕ
  targetCpuCol : ℕ
  cols_ne : threadKeyCol ≠ targetCpuCol
  rows : List Text

/-- The columns and the rows `load_plan_csv` goes through; `none` when the header lacks a column. -/
def planBody (text : Text) : Option PlanBody :=
  match fgetsLines 4096 text with
  | [] => none
  | header :: rows =>
    match h : headerCols header with
    | (some k, some c) => some ⟨k, c, headerCols_ne h, rows⟩
    | _ => none

theorem planBody_of_cols {text header : Text} {rows : List Text} {k c : ℕ}
    (hlines : fgetsLines 4096 text = header :: rows)
    (hcols : headerCols header = (some k, some c)) :
    planBody text = some ⟨k, c, headerCols_ne hcols, rows⟩ := by
  unfold planBody
  rw [hlines]
  simp only
  split
  · rename_i k' c' h
    obtain ⟨rfl, rfl⟩ : k = k' ∧ c = c' := by simpa using hcols.symm.trans h
    rfl
  · rename_i h
    exact absurd hcols (h k c)

theorem exists_header {text : Text} {b : PlanBody} (hb : planBody text = some b) :
    ∃ header, fgetsLines 4096 text = header :: b.rows ∧
      headerCols header = (some b.threadKeyCol, some b.targetCpuCol) := by
  unfold planBody at hb
  split at hb
  · cases hb
  · rename_i header rows hlines
    split at hb
    · rename_i hcols
      obtain rfl := Option.some.inj hb
      exact ⟨header, hlines, hcols⟩
    · cases hb

theorem planRows_of_planBody {text : Text} {b : PlanBody} (hb : planBody text = some b) :
    planRows text = some (b.rows.filterMap (goodRow b.threadKeyCol b.targetCpuCol)) := by
  obtain ⟨header, hlines, hcols⟩ := exists_header hb
  unfold planRows
  rw [hlines]
  simp only [hcols]

section Calls
variable {σ : Type*} (calls : MapCalls σ)

/-- The entries the loop installs, each with the row it is made of. -/
def installed (k c : ℕ) : List Text → σ → List (Text × ℕ × ℕ)
  | [], _ => []
  | row :: rows, s =>
    match goodRow k c row with
    | none => installed k c rows s
    | some p =>
      if (install calls s p.1 p.2).2 then
        (row, p) :: installed k c rows (install calls s p.1 p.2).1
      else installed k c rows (install calls s p.1 p.2).1

theorem loadRows_count (k c : ℕ) : ∀ (rows : List Text) (s : σ) (loaded : ℕ),
    (loadRows calls k c rows s loaded).2 = loaded + (installed calls k c rows s).length
  | [], _, _ => rfl
  | row :: rows, s, loaded => by
    rw [loadRows, installed]
    rcases goodRow k c row with _ | ⟨key, value⟩
    · exact loadRows_count k c rows s loaded
    · simp only
      rcases install calls s key value with ⟨s', _ | _⟩
      · exact loadRows_count k c rows s' loaded
      · simp only [if_true, List.length_cons]
        rw [loadRows_count k c rows s' (loaded + 1), Nat.add_right_comm, Nat.add_assoc]

/-- **These are the entries** that `load_plan_csv` counts. -/
theorem loadPlanCsv_count {text : Text} {b : PlanBody} (hb : planBody text = some b) (s : σ) :
    (loadPlanCsv calls (.ok text) s).2 =
      (installed calls b.threadKeyCol b.targetCpuCol b.rows s).length := by
  obtain ⟨header, hlines, hcols⟩ := exists_header hb
  unfold loadPlanCsv
  simp only [hlines, hcols]
  rw [loadRows_count, Nat.zero_add]

theorem goodRow_of_installed {k c : ℕ} : ∀ {rows : List Text} {s : σ} {e : Text × ℕ × ℕ},
    e ∈ installed calls k c rows s → e.1 ∈ rows ∧ goodRow k c e.1 = some e.2
  | [], _, _, he => absurd he List.not_mem_nil
  | row :: rows, s, e, he => by
    rw [installed] at he
    have hrest : ∀ {s' : σ}, e ∈ installed calls k c rows s' →
        e.1 ∈ row :: rows ∧ goodRow k c e.1 = some e.2 := fun he =>
      (goodRow_of_installed he).imp_left (List.mem_cons_of_mem _)
    rcases hgood : goodRow k c row with _ | p
    · rw [hgood] at he
      exact hrest he
    · rw [hgood] at he
      simp only at he
      split_ifs at he with hok
      · rcases List.mem_cons.mp he with rfl | he
        · exact ⟨List.mem_cons_self, hgood⟩
        · exact hrest he
      · exact hrest he

/-- A map that takes everything has an entry of every good row. -/
theorem mem_installed (hok : ∀ s key value, (install calls s key value).2 = true) {k c : ℕ}
    {row : Text} {p : ℕ × ℕ} (hgood : goodRow k c row = some p) :
    ∀ {rows : List Text} {s : σ}, row ∈ rows → (row, p) ∈ installed calls k c rows s
  | row' :: rows, s, hrow => by
    rw [installed]
    rcases List.mem_cons.mp hrow with rfl | hrow
    · rw [hgood]
      simp only
      rw [if_pos (hok s p.1 p.2)]
      exact List.mem_cons_self
    · rcases goodRow k c row' with _ | p'
      · exact mem_installed hok hgood hrow
      · simp only
        rw [if_pos (hok s p'.1 p'.2)]
        exact List.mem_cons_of_mem _ (mem_installed hok hgood hrow)

end Calls

/-- What holds of every entry, whatever the map calls do, holds of every good row. -/
theorem forall_installed_iff {k c : ℕ} {rows : List Text} {P : Text → ℕ × ℕ → Prop} :
    (∀ (σ : Type) (calls : MapCalls σ) (s : σ), ∀ e ∈ installed calls k c rows s, P e.1 e.2) ↔
      ∀ row ∈ rows, ∀ p, goodRow k c row = some p → P row p := by
  constructor
  · intro h row hrow p hgood
    have hok : ∀ s key value, (install (patternCalls fun _ => true) s key value).2 = true :=
      fun s key value => by rw [install_pattern, if_pos rfl]
    exact h Kernel (patternCalls fun _ => true) idle (row, p) (mem_installed _ hok hgood hrow)
  · intro h σ calls s e he
    obtain ⟨hrow, hgood⟩ := goodRow_of_installed calls he
    exact h e.1 hrow e.2 hgood

namespace PlanBody
variable (b : PlanBody)

/-- **Every entry is what its row writes**, whatever the map calls do. -/
def TakenExactly : Prop := ∀ (σ : Type) (calls : MapCalls σ) (s : σ),
  ∀ e ∈ installed calls b.threadKeyCol b.targetCpuCol b.rows s,
    Writes b.threadKeyCol b.targetCpuCol e.1 e.2

/-- **Every entry is what some row writes**, whatever the map calls do. -/
def Written : Prop := ∀ (σ : Type) (calls : MapCalls σ) (s : σ),
  ∀ e ∈ installed calls b.threadKeyCol b.targetCpuCol b.rows s,
    ∃ row ∈ b.rows, Writes b.threadKeyCol b.targetCpuCol row e.2

theorem takenExactly_iff_misread :
    b.TakenExactly ↔ ∀ row ∈ b.rows, ¬ MisreadRow b.threadKeyCol b.targetCpuCol row := by
  unfold TakenExactly
  rw [forall_installed_iff]
  exact forall₂_congr fun row _ => writes_iff b.cols_ne row

/-- Where a row is misread, another row has to write what is left of its numbers. -/
theorem written_iff_misread : b.Written ↔ ∀ row ∈ b.rows,
    ∀ z ∈ writtenTid b.threadKeyCol row, ∀ w ∈ writtenCpu b.targetCpuCol row, Misread z w →
      ∃ row' ∈ b.rows, z % 2 ^ 32 ∈ writtenTid b.threadKeyCol row' ∧
        w % 2 ^ 32 ∈ writtenCpu b.targetCpuCol row' := by
  unfold Written
  rw [@forall_installed_iff _ _ _ fun _ p =>
    ∃ row ∈ b.rows, Writes b.threadKeyCol b.targetCpuCol row p]
  constructor
  · intro h row hrow z hz w hw hmis
    have hgood := (goodRow_eq_some_iff b.cols_ne).mpr ⟨z, hz, w, hw, hmis.toPasses, rfl⟩
    obtain ⟨row', hrow', hwrites⟩ := h row hrow _ hgood
    exact ⟨row', hrow', writes_lowEntry.mp hwrites⟩
  · intro h row hrow p hgood
    obtain ⟨z, hz, w, hw, hpass, rfl⟩ := (goodRow_eq_some_iff b.cols_ne).mp hgood
    by_cases hint : IsInt z ∧ IsInt w
    · exact ⟨row, hrow, (hpass.writes_iff hz hw).mpr hint⟩
    · obtain ⟨row', hrow', hlow⟩ := h row hrow z hz w hw ⟨hpass, hint⟩
      exact ⟨row', hrow', writes_lowEntry.mpr hlow⟩

end PlanBody

/-- An entry of the loaded map is that of a row. -/
theorem exists_row_of_lookup {text : Text} {b : PlanBody} (hb : planBody text = some b)
    {tid cpu : ℕ} (h : (loadedMap text).lookup tid = some cpu) :
    ∃ row ∈ b.rows, goodRow b.threadKeyCol b.targetCpuCol row = some (tid, cpu) := by
  rw [lookup_loadedMap (planRows_of_planBody hb), planCpu] at h
  split_ifs at h
  exact List.mem_filterMap.mp (mem_of_lastVal h)

/-! ### Rows and lines -/

theorem misreadRow_newline (k c : ℕ) (row : Text) :
    MisreadRow k c (row ++ ['\n']) ↔ MisreadRow k c row := by
  unfold MisreadRow writtenTid writtenCpu
  rw [strtokR_newline]

theorem not_misreadRow_nil (k c : ℕ) : ¬ MisreadRow k c [] := by
  rintro ⟨z, hz, -⟩
  cases hz

/-- **In a plan whose lines all fit the buffer** the misread rows are lines of the plan. -/
theorem planBody_lines {text header : Text} {lines : List Text}
    (hsplit : text.splitOn '\n' = header :: lines)
    (hlen : ∀ l ∈ text.splitOn '\n', l.length < 4096) {k c : ℕ}
    (hcols : headerCols header = (some k, some c)) :
    ∃ b, planBody text = some b ∧ b.threadKeyCol = k ∧ b.targetCpuCol = c ∧
      ((∀ row ∈ b.rows, ¬ MisreadRow k c row) ↔ ∀ l ∈ lines, ¬ MisreadRow k c l) := by
  have hne : header :: lines ≠ [[]] := by
    intro h
    obtain ⟨rfl, -⟩ := List.cons.inj h
    cases hcols
  obtain ⟨header', rest, hread, hheader, hrest⟩ :=
    fgetsLines_splitOn Unit (by decide : 2 ≤ 4096) hsplit hlen hne
  refine ⟨_, planBody_of_cols hread ((headerCols_of_read hheader).trans hcols), rfl, rfl, ?_⟩
  have hnone : ∀ ls : List Text, (ls.filterMap fun row =>
      if MisreadRow k c row then some () else none) = [] ↔ ∀ row ∈ ls, ¬ MisreadRow k c row := by
    intro ls
    simp only [List.filterMap_eq_nil_iff, ite_eq_right_iff, reduceCtorEq, imp_false]
  rw [← hnone, ← hnone, hrest _ (fun l => by simp only [misreadRow_newline])
    (if_neg (not_misreadRow_nil k c))]

/-! ### The condition -/

/-- **When the integers of a plan are taken exactly or not at all.** A field is, exactly when the
integer it begins with is an `int` or no `long`. A plan is, whatever the map calls do, exactly when
no row of it is misread; and every entry is what some row writes exactly when what is left of the
numbers of a misread row is written by another one. In the maps of the kernel every entry is then
what a row writes. Where all lines fit the buffer, the misread rows are lines. -/
theorem takenExactly_iff (field text : Text) :
    (Exact field ↔ ∀ z ∈ strtol field, IsLong z → IsInt z) ∧
    (∀ b, planBody text = some b →
      (b.TakenExactly ↔ ∀ row ∈ b.rows, ¬ MisreadRow b.threadKeyCol b.targetCpuCol row) ∧
      (b.Written ↔ ∀ row ∈ b.rows,
        ∀ z ∈ writtenTid b.threadKeyCol row, ∀ w ∈ writtenCpu b.targetCpuCol row, Misread z w →
          ∃ row' ∈ b.rows, z % 2 ^ 32 ∈ writtenTid b.threadKeyCol row' ∧
            w % 2 ^ 32 ∈ writtenCpu b.targetCpuCol row') ∧
      ((∀ row ∈ b.rows, ¬ MisreadRow b.threadKeyCol b.targetCpuCol row) →
        ∀ tid cpu, (loadedMap text).lookup tid = some cpu →
          ∃ row ∈ b.rows, Writes b.threadKeyCol b.targetCpuCol row (tid, cpu))) ∧
    ∀ header lines, text.splitOn '\n' = header :: lines →
      (∀ l ∈ text.splitOn '\n', l.length < 4096) →
        ∀ k c, headerCols header = (some k, some c) → ∃ b, planBody text = some b ∧
          (b.TakenExactly ↔ ∀ l ∈ lines, ¬ MisreadRow k c l) := by
  refine ⟨exact_iff field, fun b hb => ⟨b.takenExactly_iff_misread, b.written_iff_misread, ?_⟩, ?_⟩
  · intro h tid cpu hlookup
    obtain ⟨row, hrow, hgood⟩ := exists_row_of_lookup hb hlookup
    exact ⟨row, hrow, (writes_iff b.cols_ne row).mpr (h row hrow) _ hgood⟩
  · intro header lines hsplit hlen k c hcols
    obtain ⟨b, hb, rfl, rfl, hmis⟩ := planBody_lines hsplit hlen hcols
    exact ⟨b, hb, b.takenExactly_iff_misread.trans hmis⟩

/-- A plan for thread 4294967303, which is 7 in 32 bits. -/
def widePlan : Text := "thread_key,target_cpu\ncpu:pid=4294967303:worker,3\n".toList

def wideBody : PlanBody := ⟨0, 1, by decide, ["cpu:pid=4294967303:worker,3\n".toList]⟩

theorem planBody_widePlan : planBody widePlan = some wideBody := by
  have hlines : fgetsLines 4096 widePlan = "thread_key,target_cpu\n".toList :: wideBody.rows := by
    decide +kernel
  exact planBody_of_cols hlines (by decide +kernel)

/-- The number is stored as 7, and the loader binds TID 7, which no row writes. -/
theorem not_takenExactly_widePlan :
    parseInt "4294967303:worker".toList = some 7 ∧ ¬ Exact "4294967303:worker".toList ∧
      planBody widePlan = some wideBody ∧ ¬ wideBody.TakenExactly ∧ ¬ wideBody.Written ∧
        (loadedMap widePlan).lookup 7 = some 3 ∧
        ¬ ∃ row ∈ wideBody.rows, Writes wideBody.threadKeyCol wideBody.targetCpuCol row (7, 3) := by
  refine ⟨by decide +kernel, by decide +kernel, planBody_widePlan, ?_, ?_, by decide +kernel,
    by decide +kernel⟩
  · rw [PlanBody.takenExactly_iff_misread]
    decide +kernel
  · rw [PlanBody.written_iff_misread]
    decide +kernel

theorem takenExactly_iff_widePlan :
    (wideBody.TakenExactly ↔
      ∀ row ∈ wideBody.rows, ¬ MisreadRow wideBody.threadKeyCol wideBody.targetCpuCol row) :=
  ((takenExactly_iff [] widePlan).2.1 wideBody planBody_widePlan).1

end Magm.Scx.Integers
