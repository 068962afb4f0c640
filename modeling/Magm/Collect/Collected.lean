import Magm.Collect.Replay
import Magm.Collect.SchedCsv

/-! # Attribution on a collected log

From the switches on the CPUs to the thread of a counter sample: the records pass the ring buffer,
their lines `sched.csv`, and `find_last_thread` looks for the last of them. On every CPU the lines
are in the order of time, so the sort of the script leaves them as they are, and switches at the
same time on one CPU do no harm (`attributed_collected`). -/

namespace Magm.Collect.Collected

open Magm.Lib.Buffer Magm.Lib.Chars Magm.Lib.Csv Magm.Lib.Sorting Magm.Table.Cells
open Magm.Collect.SwitchLog
open Magm.Collect.Attribution Magm.Collect.Replay Magm.Collect.Collector Magm.Collect.Recorded
open Magm.Collect.SchedCsv

variable {k : ℕ} {s : System}

/-- The line that `main` writes into a new file. -/
def headerLine : Text := "ts,cpu,prev_comm,prev_pid,next_comm,next_pid\n".toList

theorem schedCsv_eq (events : List SwitchEvent) :
    schedCsv events = headerLine ++ events.flatMap handleEvent := rfl

/-- The rows of events that survive. -/
theorem readSched_of_survives {events : List SwitchEvent} (hrange : ∀ e ∈ events, InRange e)
    (h : ∀ e ∈ events, Survives e) : readSched (schedCsv events) = some (events.map eventRow) := by
  have hlen : ∀ r ∈ events.map eventFields, r.length ≤ 6 := by
    intro r hr
    obtain ⟨e, -, rfl⟩ := List.mem_map.mp hr
    exact Nat.le_refl 6
  rw [readSched_eq, tokenize_events h, Option.bind_some, if_pos hlen, mapM_eq_some_iff,
    List.map_map, List.map_map]
  refine List.map_congr_left fun e he => ?_
  obtain ⟨hts, hp, hn⟩ := h e he
  exact (recordRow_eventFields_eq_iff (hrange e he)).mpr ⟨hts, hp.2, hn.2⟩

/-- The records that precede a sample are in the order of the file. -/
theorem history_of_ascending {sched : List SchedRow} (x : Sample)
    (h : sched.Pairwise fun r r' => r.cpu = r'.cpu → r.ts ≤ r'.ts) :
    history sched x = sched.filter fun r => Precedes r x := by
  refine filter_sortBy schedKey ?_
  refine ((h.filter _).imp_of_mem fun {r r'} hr hr' hle => ?_)
  have hcpu : r.cpu = some x.cpu := (of_decide_eq_true (List.mem_filter.mp hr).2).1
  have hcpu' : r'.cpu = some x.cpu := (of_decide_eq_true (List.mem_filter.mp hr').2).1
  have heq : r.cpu = r'.cpu := hcpu.trans hcpu'.symm
  refine Prod.Lex.toLex_le_toLex.mpr (Or.inr ⟨?_, hle heq⟩)
  rw [heq]

/-- The thread that a switch goes to, as the script finds it. -/
def nextOf (n : Note) : Named := (some n.ctx.nextName.comm.text, some (n.ctx.nextPid : ℤ))

/-- The switches on the CPU of a sample that are not later. -/
def Before (n : Note) (x : Sample) : Prop := (n.cpu : ℤ) = x.cpu ∧ (n.event.ts : ℤ) ≤ x.ts

instance (n : Note) (x : Sample) : Decidable (Before n x) := by unfold Before; infer_instance

theorem attributed_notes {notes : List Note} (x : Sample)
    (h : notes.Pairwise fun n n' => n.cpu = n'.cpu → n.event.ts ≤ n'.event.ts) :
    attributed (notes.map fun n => eventRow n.event) x =
      ((notes.filter fun n => Before n x).getLast?.map nextOf).getD (none, none) := by
  have hasc : (notes.map fun n => eventRow n.event).Pairwise fun r r' =>
      r.cpu = r'.cpu → r.ts ≤ r'.ts := by
    refine List.pairwise_map.mpr (h.imp fun {n n'} hle hcpu => ?_)
    exact Int.ofNat_le.mpr (hle (Int.ofNat.inj (Option.some.inj hcpu)))
  have hfilter : ((notes.map fun n => eventRow n.event).filter fun r => Precedes r x) =
      (notes.filter fun n => Before n x).map fun n => eventRow n.event := by
    rw [List.filter_map]
    refine congrArg _ (List.filter_congr fun n _ => ?_)
    refine decide_eq_decide.mpr (and_congr ?_ Iff.rfl)
    exact Option.some_inj
  rw [attributed_history, history_of_ascending x hasc, hfilter, List.getLast?_map, Option.map_map]
  rfl

/-- The thread that a sample finds among the first `d` records. -/
def lastSwitch (notes : List Note) (d : ℕ) (x : Sample) : Named :=
  (((notes.take d).filter fun n => Before n x).getLast?.map nextOf).getD (none, none)

/-- The switches whose records the callback has got. -/
def logged (s : System) : List Note := s.notes.take s.ring.delivered.length

/-- **The log of a new file is read as the logged switches**, which are in the order of time on
every CPU. -/
theorem readSched_logged {data : Bytes} {acts : List Act}
    (hr : run k (start data headerLine) acts = some s)
    (hopen : ∀ a ∈ acts, a ≠ .collect false) (hread : ∀ n ∈ s.notes, Survives n.event) :
    s.ring.delivered.length ≤ s.notes.length ∧
      readSched s.csv = some ((logged s).map fun n => eventRow n.event) ∧
      (logged s).Pairwise fun n n' => n.cpu = n'.cpu → n.event.ts ≤ n'.event.ts := by
  have hi := sysInv_run (sysInv_start k data headerLine) hr
  obtain ⟨c, hinv⟩ := hi.ring
  obtain ⟨d, hd, -, hdel, hdone⟩ := hinv.exists_delivered
  have hmap := map_eventLine hi hd hdone
  have hlen : s.ring.delivered.length = d := by
    have hl := congrArg List.length hmap
    rw [List.length_map, List.length_map, List.length_take, hi.length, min_eq_left hd] at hl
    rw [hdel, hl]
  have hlogged : logged s = s.notes.take d := by rw [logged, hlen]
  rw [hlen, hlogged]
  refine ⟨hi.length ▸ hd, ?_, ascending_ts hi hd hdone⟩
  obtain ⟨lines, -, hcsv, hfull⟩ := Lines.run (sysInv_start k data headerLine)
    (lines_start data headerLine) hr
  have hevents : s.csv = schedCsv ((s.notes.take d).map Note.event) := by
    rw [schedCsv_eq, hcsv, hfull ⟨trivial, hopen⟩, hdel, hmap, List.flatMap_map, List.flatMap_def]
  rw [hevents, readSched_of_survives, List.map_map]
  · rfl
  · intro e he
    obtain ⟨n, hn, rfl⟩ := List.mem_map.mp he
    exact inRange_of_take hi hd hdone hn
  · intro e he
    obtain ⟨n, hn, rfl⟩ := List.mem_map.mp he
    exact hread n (List.mem_of_mem_take hn)

/-- A sample finds the last of the logged switches. -/
theorem exists_readSched {data : Bytes} {acts : List Act}
    (hr : run k (start data headerLine) acts = some s)
    (hopen : ∀ a ∈ acts, a ≠ .collect false) (hread : ∀ n ∈ s.notes, Survives n.event) :
    ∃ d ≤ s.notes.length, ∃ sched, readSched s.csv = some sched ∧
      ∀ x, attributed sched x = lastSwitch s.notes d x := by
  obtain ⟨hd, hsched, hasc⟩ := readSched_logged hr hopen hread
  exact ⟨_, hd, _, hsched, fun x => attributed_notes x hasc⟩

instance (e : SwitchEvent) : Decidable (Survives e) := by unfold Survives; infer_instance

/-- A switch on CPU 0, and the poll of its record. -/
def loggedSwitch : List Act :=
  [.enter 0 oneSwitch, .tick 7] ++ List.replicate 8 (.exec 0 0) ++ [.poll] ++
    List.replicate 60 (.collect true)

/-- The switch is in the log, with its time. -/
theorem run_loggedSwitch : ∃ s, run 8 (start (fun _ => 0) headerLine) loggedSwitch = some s ∧
    (∀ n ∈ s.notes, Survives n.event) ∧
      (logged s).map (fun n => eventRow n.event) = [eventRow (oneSwitch.event 0 7)] := by
  have hrun : (run 8 (start (fun _ => 0) headerLine) loggedSwitch).map (fun s =>
      decide ((∀ n ∈ s.notes, Survives n.event) ∧ (logged s).map (fun n => eventRow n.event) =
        [eventRow (oneSwitch.event 0 7)])) = some true := by decide +kernel
  obtain ⟨s, hs, hdec⟩ := Option.map_eq_some_iff.mp hrun
  exact ⟨s, hs, of_decide_eq_true hdec⟩

end Magm.Collect.Collected
