import Magm.Apply.Live
import Magm.Lib.ReadText

/-! # The processes of a group: `parse_proc_stat` and `process_group_pids`

A line of `/proc/<pid>/stat` has the name of the process as it is between two parentheses, so the
name can look like the rest of a line. `parse_proc_stat` takes the first opening parenthesis and the
last closing one. What stands around the name is printed by the kernel, so these are the right ones
whatever the name is (`parseProcStat_inverts`), and no name brings a process into a group.

The kernel prints ASCII around the name, and its numbers are below the limit that Python puts on the
digits of a number. A name that is no UTF-8 has no text: `read_text` raises a `UnicodeDecodeError`,
which is a `ValueError`, and the process is passed over (`groupLoop_undecodable`). -/

namespace Magm.Apply.ProcessGroup

open Magm.Lib.Chars Magm.Lib.PyStr Magm.Lib.ReadText Magm.Lib.Sorting Magm.Apply.Binding
open Magm.Apply.Live

/-! ### `parse_proc_stat` -/

/-- What `parse_proc_stat` can raise. -/
inductive StatError
  | valueError | indexError
  deriving DecidableEq

structure ProcStat where
  pid : ℤ
  comm : Text
  ppid : ℤ
  pgrp : ℤ
  processor : ℤ
  deriving DecidableEq

/-- `int(s)`. -/
def asInt (s : Text) : Except StatError ℤ :=
  match pyInt s with
  | some z => .ok z
  | none => .error .valueError

theorem asInt_dec (z : ℤ) : asInt (dec z) = .ok z := by
  rw [asInt, pyInt_dec]

/-- `l[i]`. -/
def item (l : List Text) (i : ℕ) : Except StatError Text :=
  match l[i]? with
  | some s => .ok s
  | none => .error .indexError

/-- `int(after[36]) if len(after) > 36 else -1`. -/
def processorOf (after : List Text) : Except StatError ℤ :=
  if 36 < after.length then item after 36 >>= asInt else .ok (-1)

def parseProcStat (statText : Text) : Except StatError ProcStat := do
  let close := rfind ')' statText
  let before := statText.take (close + 1).toNat
  let after := splitSpace (statText.drop (close + 2).toNat)
  let pid ← asInt (strip (← item (splitMax '(' 1 before) 0))
  let comm := (← item (splitMax '(' 1 before) 1).dropLast
  let ppid ← asInt (← item after 1)
  let pgrp ← asInt (← item after 2)
  let processor ← processorOf after
  return ⟨pid, comm, ppid, pgrp, processor⟩

/-! ### The lines of the kernel -/

/-- What the kernel prints of a process: the pid, the name, and three fields at least. -/
structure StatLine where
  pid : ℕ
  comm : Text
  state : Char
  letter : state.isAlpha = true
  ppid : ℤ
  pgrp : ℤ
  rest : List ℤ

namespace StatLine
variable (line : StatLine)

/-- The fields behind the name. -/
def fields : List Text := [line.state] :: (line.ppid :: line.pgrp :: line.rest).map dec

def text : Text :=
  decNat line.pid ++ " (".toList ++ line.comm ++ ") ".toList ++ [' '].intercalate line.fields

/-- What the fields say; the field number 36 is the processor. -/
def stat : ProcStat := ⟨line.pid, line.comm, line.ppid, line.pgrp, line.rest[33]?.getD (-1)⟩

theorem fields_plain : ∀ f ∈ line.fields, f ≠ [] ∧ ∀ c ∈ f, isSpace c = false := by
  intro f hf
  rcases List.mem_cons.mp hf with rfl | hf
  · refine ⟨List.cons_ne_nil _ _, fun c hc => ?_⟩
    obtain rfl := List.mem_singleton.mp hc
    exact isSpace_of_le (le_trans (by decide) (le_of_isAlpha line.letter))
  · obtain ⟨z, -, rfl⟩ := List.mem_map.mp hf
    exact ⟨dec_ne_nil z, fun c hc => isSpace_of_mem_dec hc⟩

theorem paren_notMem_fields : ∀ f ∈ line.fields, ')' ∉ f := by
  intro f hf hc
  rcases List.mem_cons.mp hf with rfl | hf
  · have hletter := le_of_isAlpha line.letter
    rw [← List.mem_singleton.mp hc] at hletter
    exact absurd hletter (by decide)
  · obtain ⟨z, -, rfl⟩ := List.mem_map.mp hf
    rcases mem_dec hc with h | h
    · exact absurd h (by decide)
    · exact absurd h (by decide)

theorem length_fields : line.fields.length = line.rest.length + 3 := by
  rw [fields, List.length_cons, List.length_map, List.length_cons, List.length_cons]

theorem getElem?_fields : line.fields[36]? = line.rest[33]?.map dec := by
  rw [fields, List.getElem?_cons_succ, List.getElem?_map]
  rfl

/-- The processor is the field number 36, if there is one. -/
theorem processorOf_fields : processorOf line.fields = .ok line.stat.processor := by
  unfold processorOf item stat
  rw [line.getElem?_fields, line.length_fields]
  rcases hrest : line.rest[33]? with _ | z
  · rw [if_neg (by rw [List.getElem?_eq_none_iff] at hrest; omega)]
    rfl
  · have hlt := (List.getElem?_eq_some_iff.mp hrest).1
    rw [if_pos (by omega), Option.map_some]
    exact asInt_dec z

/-- What stands in front of the name is the pid. -/
theorem splitMax_front (comm : Text) :
    splitMax '(' 1 ((decNat line.pid ++ [' ']) ++ '(' :: comm) = [decNat line.pid ++ [' '], comm] ∧
      asInt (strip (decNat line.pid ++ [' '])) = .ok (line.pid : ℤ) := by
  have hdigit : ∀ c ∈ decNat line.pid, c.isDigit = true := fun c hc => isDigit_of_mem_decNat hc
  have hopen : '(' ∉ decNat line.pid ++ [' '] := by
    intro hc
    rcases List.mem_append.mp hc with hc | hc
    · exact absurd (hdigit _ hc) (by decide)
    · exact absurd hc (by decide)
  refine ⟨splitMax_append hopen 0 comm, ?_⟩
  rw [strip_append (fun c hc => isSpace_of_isDigit (hdigit c hc)) (by decide), ← dec_natCast,
    asInt_dec]

/-- **A line is read back**, whatever the name is, and with any white space behind it. -/
theorem parseProcStat_text {tail : Text} (htail : ∀ c ∈ tail, isSpace c = true) :
    parseProcStat (line.text ++ tail) = .ok line.stat := by
  have htext : line.text ++ tail = ((decNat line.pid ++ [' ']) ++ '(' :: line.comm) ++
      ')' :: ' ' :: ([' '].intercalate line.fields ++ tail) := by
    simp [text]
  have hclose : ')' ∉ ' ' :: ([' '].intercalate line.fields ++ tail) := by
    rw [List.mem_cons, List.mem_append, not_or, not_or]
    refine ⟨by decide, notMem_intercalate (by decide) line.paren_notMem_fields, fun hc => ?_⟩
    exact absurd (htail _ hc) (by decide)
  obtain ⟨hbefore, hpid⟩ := line.splitMax_front (line.comm ++ [')'])
  have hafter := splitSpace_intercalate htail line.fields_plain
  have hok : ∀ {α β : Type} (a : α) (f : α → Except StatError β), (Except.ok a >>= f) = f a :=
    fun _ _ => rfl
  have hppid : item line.fields 1 = .ok (dec line.ppid) := rfl
  have hpgrp : item line.fields 2 = .ok (dec line.pgrp) := rfl
  unfold parseProcStat
  rw [htext]
  simp only
  rw [take_rfind hclose, drop_rfind hclose, List.append_assoc, List.cons_append, hbefore, hafter]
  have hname : item [decNat line.pid ++ [' '], line.comm ++ [')']] 1 = .ok (line.comm ++ [')']) :=
    rfl
  have hfront : item [decNat line.pid ++ [' '], line.comm ++ [')']] 0 =
    .ok (decNat line.pid ++ [' ']) := rfl
  simp only [hfront, hname, hppid, hpgrp, hok, hpid, asInt_dec, line.processorOf_fields,
    List.dropLast_concat]
  rfl

/-- A name that looks like the rest of a line. -/
def spoofed : StatLine := ⟨42, ") R 1 2 (x".toList, 'S', by decide, 1, 7, []⟩

example : parseProcStat "42 () R 1 2 (x) S 1 7\n".toList =
    .ok ⟨42, ") R 1 2 (x".toList, 1, 7, -1⟩ := by decide +kernel

/-! ### The file of a line -/

/-- The line as `read_text` gives it. -/
def readBack : StatLine := { line with comm := newlines line.comm }

/-- The bytes of the file: the line and its newline. -/
def file : ByteArray := encode (line.text ++ ['\n'])

theorem readText_file : readText line.file = some (line.readBack.text ++ ['\n']) := by
  have hsplit : ∀ comm : Text, ({ line with comm := comm } : StatLine).text ++ ['\n'] =
      (decNat line.pid ++ " (".toList) ++ (comm ++
        ')' :: (' ' :: [' '].intercalate line.fields ++ ['\n'])) := by
    intro comm
    simp [text, fields]
  have hfront : '\r' ∉ decNat line.pid ++ " (".toList := by
    intro hc
    rcases List.mem_append.mp hc with hc | hc
    · exact absurd (isDigit_of_mem_decNat hc) (by decide)
    · exact absurd hc (by decide)
  have hback : '\r' ∉ ')' :: (' ' :: [' '].intercalate line.fields ++ ['\n']) := by
    have hfields : '\r' ∉ [' '].intercalate line.fields :=
      notMem_intercalate (by decide) fun f hf hc =>
        absurd ((line.fields_plain f hf).2 _ hc) (by decide)
    simpa using hfields
  have hnewlines : newlines (')' :: (' ' :: [' '].intercalate line.fields ++ ['\n'])) =
      ')' :: (' ' :: [' '].intercalate line.fields ++ ['\n']) := by
    have happ := newlines_append [] hback
    rwa [List.append_nil, newlines, List.append_nil] at happ
  have htext := hsplit line.comm
  rw [file, readText_encode, htext, newlines_append _ hfront,
    newlines_append_cons (by decide), hnewlines, ← hsplit]
  rfl

end StatLine

/-! ### `process_group_pids` -/

/-- An entry of `/proc`, with what reading its `stat` gives. -/
structure Entry where
  name : Text
  stat : Except OsError ByteArray

/-- What `process_group_pids` can raise. -/
inductive GroupError
  | valueError | indexError
  | os (e : OsError)

/-- `s.isdigit()`. -/
def isdigit (s : Text) : Bool := s ≠ [] ∧ ∀ c ∈ s, c.isDigit = true

/-- The `try` block of an entry; `none` is `continue`. -/
def readStat (entry : Entry) : Except GroupError (Option ProcStat) :=
  match entry.stat with
  | .error .fileNotFound => .ok none
  | .error .processLookup => .ok none
  | .error .permission => .ok none
  | .error e => .error (.os e)
  | .ok bytes =>
    match readText bytes with
    | none => .ok none
    | some statText =>
      match parseProcStat statText with
      | .ok stat => .ok (some stat)
      | .error .valueError => .ok none
      | .error .indexError => .error .indexError

/-- The loop over the entries. -/
def groupLoop (pgid : ℤ) : List ℤ → List Entry → Except GroupError (List ℤ)
  | pids, [] => .ok pids
  | pids, entry :: entries =>
    if isdigit entry.name then
      match readStat entry with
      | .error e => .error e
      | .ok none => groupLoop pgid pids entries
      | .ok (some stat) =>
        if stat.pgrp = pgid then
          match pyInt entry.name with
          | none => .error .valueError
          | some pid => groupLoop pgid (pids ++ [pid]) entries
        else groupLoop pgid pids entries
    else groupLoop pgid pids entries

def processGroupPids (entries : List Entry) (pgid : ℤ) : Except GroupError (List ℤ) :=
  match groupLoop pgid [] entries with
  | .error e => .error e
  | .ok pids => .ok (sortBy id pids)

/-! ### The directory -/

/-- What `/proc` has: processes with their lines, processes that cannot be read (any more), and
entries that are no processes. -/
inductive ProcEntry
  | process (line : StatLine)
  | unread (pid : ℕ) (e : OsError) (h : e ∈ [.fileNotFound, .processLookup, .permission])
  | other (entry : Entry) (h : isdigit entry.name = false)

namespace ProcEntry

def entry : ProcEntry → Entry
  | process line => ⟨decNat line.pid, .ok line.file⟩
  | unread pid e _ => ⟨decNat pid, .error e⟩
  | other entry _ => entry

def line : ProcEntry → Option StatLine
  | process line => some line
  | unread _ _ _ => none
  | other _ _ => none

end ProcEntry

/-- The pids of the processes of a group, in the order of the directory. -/
def groupPids (pgid : ℤ) (dir : List ProcEntry) : List ℤ :=
  ((dir.filterMap ProcEntry.line).filter fun l => l.pgrp = pgid).map fun l => (l.pid : ℤ)

theorem groupPids_process (pgid : ℤ) (line : StatLine) (dir : List ProcEntry) :
    groupPids pgid (.process line :: dir) =
      if line.pgrp = pgid then (line.pid : ℤ) :: groupPids pgid dir else groupPids pgid dir := by
  have hline : (ProcEntry.process line).line = some line := rfl
  unfold groupPids
  rw [List.filterMap_cons_some hline]
  split_ifs with h
  · rw [List.filter_cons_of_pos (by simpa using h), List.map_cons]
  · rw [List.filter_cons_of_neg (by simpa using h)]

theorem isdigit_decNat (n : ℕ) : isdigit (decNat n) = true :=
  decide_eq_true ⟨decNat_ne_nil n, fun _ hc => isDigit_of_mem_decNat hc⟩

theorem readStat_process (line : StatLine) :
    readStat (ProcEntry.process line).entry = .ok (some line.readBack.stat) := by
  have hparse := line.readBack.parseProcStat_text (by decide : ∀ c ∈ ['\n'], isSpace c = true)
  unfold readStat
  simp only [ProcEntry.entry, line.readText_file, hparse]

theorem readStat_unread {pid : ℕ} {e : OsError}
    (h : e ∈ [.fileNotFound, .processLookup, .permission]) :
    readStat (ProcEntry.unread pid e h).entry = .ok none := by
  rcases List.mem_cons.mp h with rfl | h
  · rfl
  · rcases List.mem_cons.mp h with rfl | h
    · rfl
    · obtain rfl := List.mem_singleton.mp h
      rfl

/-- **The run**: the loop collects the pids of the group. -/
theorem groupLoop_eq (pgid : ℤ) : ∀ (dir : List ProcEntry) (pids : List ℤ),
    groupLoop pgid pids (dir.map ProcEntry.entry) = .ok (pids ++ groupPids pgid dir)
  | [], pids => by
    rw [List.map_nil, groupLoop]
    exact congrArg _ (List.append_nil pids).symm
  | .process line :: dir, pids => by
    have hname : isdigit (ProcEntry.process line).entry.name = true := isdigit_decNat line.pid
    have hpid : pyInt (ProcEntry.process line).entry.name = some (line.pid : ℤ) :=
      pyInt_decNat line.pid
    have hpgrp : line.readBack.stat.pgrp = line.pgrp := rfl
    rw [List.map_cons, groupLoop, if_pos hname, readStat_process]
    simp only [hpgrp, hpid]
    rw [groupPids_process]
    split_ifs with hgroup
    · rw [groupLoop_eq pgid dir, List.append_assoc, List.singleton_append]
    · exact groupLoop_eq pgid dir pids
  | .unread pid e h :: dir, pids => by
    have hname : isdigit (ProcEntry.unread pid e h).entry.name = true := isdigit_decNat pid
    rw [List.map_cons, groupLoop, readStat_unread, if_pos hname]
    exact groupLoop_eq pgid dir pids
  | .other entry h :: dir, pids => by
    have hname : isdigit (ProcEntry.other entry h).entry.name = false := h
    rw [List.map_cons, groupLoop, hname]
    exact groupLoop_eq pgid dir pids

theorem processGroupPids_eq (dir : List ProcEntry) (pgid : ℤ) :
    processGroupPids (dir.map ProcEntry.entry) pgid = .ok (sortBy id (groupPids pgid dir)) := by
  unfold processGroupPids
  rw [groupLoop_eq]
  rfl

/-- A process whose name is no UTF-8 is passed over. -/
theorem groupLoop_undecodable (pgid : ℤ) (pids : List ℤ) (name : Text) {bytes : ByteArray}
    (h : bytes.utf8Decode? = none) (entries : List Entry) :
    groupLoop pgid pids (⟨name, .ok bytes⟩ :: entries) = groupLoop pgid pids entries := by
  have hread : readStat ⟨name, .ok bytes⟩ = .ok none := by
    unfold readStat readText
    simp only [h, Option.map_none]
  rw [groupLoop, hread]
  simp only
  split_ifs <;> rfl

/-- **Lines are read back, and groups are found.** Of every line of the kernel `parse_proc_stat`
returns the pid, the name, and the fields number 1, 2 and 36 behind it, or `-1` if there are fewer.
On every directory `process_group_pids` returns the sorted pids of the processes whose line says
that they are in the group. -/
theorem parseProcStat_inverts :
    (∀ (line : StatLine) (tail : Text), (∀ c ∈ tail, isSpace c = true) →
      ∃ stat, parseProcStat (line.text ++ tail) = .ok stat ∧
        stat.pid = line.pid ∧ stat.comm = line.comm ∧
        line.fields[1]? = some (dec stat.ppid) ∧ line.fields[2]? = some (dec stat.pgrp) ∧
        (37 ≤ line.fields.length → line.fields[36]? = some (dec stat.processor)) ∧
        (line.fields.length ≤ 36 → stat.processor = -1)) ∧
    ∀ (dir : List ProcEntry) (pgid : ℤ), ∃ pids,
      processGroupPids (dir.map ProcEntry.entry) pgid = .ok pids ∧ pids.Pairwise (· ≤ ·) ∧
        pids.Perm (groupPids pgid dir) := by
  refine ⟨fun line tail htail => ?_, fun dir pgid => ?_⟩
  · have hlen : line.fields.length = line.rest.length + 3 := line.length_fields
    refine ⟨line.stat, line.parseProcStat_text htail, rfl, rfl, rfl, rfl, fun h => ?_, fun h => ?_⟩
    · rw [hlen] at h
      have hlt : 33 < line.rest.length := by omega
      rw [line.getElem?_fields, StatLine.stat, List.getElem?_eq_getElem hlt]
      rfl
    · rw [hlen] at h
      rw [StatLine.stat, List.getElem?_eq_none (by omega)]
      rfl
  · exact ⟨_, processGroupPids_eq dir pgid, sortBy_sorted id _, sortBy_perm id _⟩

theorem parseProcStat_inverts_spoofed :
    ∃ stat, parseProcStat (StatLine.spoofed.text ++ ['\n']) = .ok stat ∧
      stat.pid = StatLine.spoofed.pid ∧ stat.comm = StatLine.spoofed.comm ∧
      StatLine.spoofed.fields[1]? = some (dec stat.ppid) ∧
      StatLine.spoofed.fields[2]? = some (dec stat.pgrp) ∧
      (37 ≤ StatLine.spoofed.fields.length →
        StatLine.spoofed.fields[36]? = some (dec stat.processor)) ∧
      (StatLine.spoofed.fields.length ≤ 36 → stat.processor = -1) :=
  parseProcStat_inverts.1 StatLine.spoofed ['\n'] (by decide)

/-! ### The threads that are bound -/

theorem mem_groupPids {pgid pid : ℤ} {dir : List ProcEntry} : pid ∈ groupPids pgid dir ↔
    ∃ l ∈ dir.filterMap ProcEntry.line, l.pgrp = pgid ∧ (l.pid : ℤ) = pid := by
  simp only [groupPids, List.mem_map, List.mem_filter, decide_eq_true_eq, and_assoc]

/-- **Only threads of the group are bound**, and all of them, whatever their processes' names. -/
theorem applyAffinityToGroup_group {σ : Type*} (calls : LiveCalls σ) {cpuPlan : List ℕ}
    (hplan : cpuPlan ≠ []) (dir : List ProcEntry) (pgid : ℤ) (taskTids : ℤ → List ℤ) (s : σ) :
    ∃ pids records s', processGroupPids (dir.map ProcEntry.entry) pgid = .ok pids ∧
      applyAffinityToGroup calls.toHostCalls (pids.map taskTids) cpuPlan s = (.ok records, s') ∧
      ∀ tid, tid ∈ records.map LiveRow.tid ↔
        ∃ l ∈ dir.filterMap ProcEntry.line, l.pgrp = pgid ∧ tid ∈ taskTids l.pid := by
  obtain ⟨records, s', hrun, htids, -⟩ := bindAll_turns calls hplan
    (sortBy id (collectTids ((sortBy id (groupPids pgid dir)).map taskTids)).tids) 0 s
  refine ⟨_, records, s', processGroupPids_eq dir pgid, hrun, fun tid => ?_⟩
  rw [htids, mem_sortBy, ← List.mem_toFinset, collectTids_toFinset, liveTids, List.mem_toFinset,
    List.mem_flatten]
  constructor
  · rintro ⟨tids, htids, htid⟩
    obtain ⟨pid, hpid, rfl⟩ := List.mem_map.mp htids
    obtain ⟨l, hl, hgroup, rfl⟩ := mem_groupPids.mp ((mem_sortBy id _).mp hpid)
    exact ⟨l, hl, hgroup, htid⟩
  · rintro ⟨l, hl, hgroup, htid⟩
    have hpid : (l.pid : ℤ) ∈ groupPids pgid dir := mem_groupPids.mpr ⟨l, hl, hgroup, rfl⟩
    exact ⟨_, List.mem_map_of_mem ((mem_sortBy id _).mpr hpid), htid⟩

end Magm.Apply.ProcessGroup
