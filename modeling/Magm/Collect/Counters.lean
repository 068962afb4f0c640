import Magm.Lib.BoundedMap
import Magm.Lib.Buffer

/-! # Reading the counters: `main` of `data.c`

The collector reads the five event groups of every CPU into one buffer, and takes from it the values
whose ids are those of the group. It compares the result of a read with 0 only: what the buffer has
after a read that is not negative is taken for the record of the group, whatever the read delivered.

The rows are what the reads report as long as no read leaves an entry of its own group behind what
it delivers (`collect_reported`). Otherwise an old value is written (`not_fresh_twoRounds`). -/

namespace Magm.Collect.Counters

open Magm.Lib.BoundedMap Magm.Lib.Buffer

/-! ### Groups and reads -/

/-- The event groups of a CPU. -/
inductive Group
  | hw | cache | tlb | l2 | dtlb
  deriving DecidableEq

/-- The groups in the order in which they are read. -/
def groups : List Group := [.hw, .cache, .tlb, .l2, .dtlb]

def Group.events : Group → ℕ
  | .hw => 5
  | .cache => 2
  | .tlb | .l2 | .dtlb => 1

def maxCpus : ℕ := 128

/-- How many entries `buf` has room for. -/
def capacity : ℕ := (4096 - 8) / 16

/-- The ids of the events, `ids_hw` to `ids_dtlb`. -/
structure EventIds where
  ids : ℕ → Group → List UInt64
  length_ids : ∀ cpu g, (ids cpu g).length = g.events
  nodup : ∀ cpu < maxCpus, ∀ g, (ids cpu g).Nodup
  distinct : ∀ cpu < maxCpus, ∀ cpu' < maxCpus, ∀ g g', ∀ id ∈ ids cpu g, id ∈ ids cpu' g' →
    cpu = cpu' ∧ g = g'

/-- A record of the group with the events `ids`: the id and the value of every event. -/
structure Record (ids : List UInt64) where
  entries : List (UInt64 × UInt64)
  ids_perm : (entries.map Prod.fst).Perm ids
  fits : entries.length ≤ capacity

namespace Record

variable {ids : List UInt64} (record : Record ids)

/-- The record as `struct read_format`: `nr`, and the value and the id of every entry. -/
def words : List UInt64 :=
  UInt64.ofNat record.entries.length :: record.entries.flatMap fun p => [p.2, p.1]

def size : ℕ := 8 + 16 * record.entries.length

end Record

/-- How a read ends: it fails, or delivers the first `n` bytes of a record. -/
inductive ReadResult (ids : List UInt64)
  | failed
  | delivered (record : Record ids) (n : ℕ) (hn : n ≤ record.size)

/-- How many entries of a record are among its first `n` bytes. -/
def whole (n : ℕ) : ℕ := (n - 8) / 16

namespace ReadResult

variable {ids : List UInt64}

def isFailed : ReadResult ids → Bool
  | failed => true
  | delivered _ _ _ => false

/-- The value that the read reports for an event, or 0. -/
def reported : ReadResult ids → UInt64 → UInt64
  | failed, _ => 0
  | delivered record n _, id => (lastVal id (record.entries.take (whole n))).getD 0

end ReadResult

/-! ### Decoding the buffer -/

/-- `rf->nr`. -/
def nr (buf : Bytes) : ℕ := (word buf 0).toNat

/-- `rf->values[k]`, its id first. -/
def entryAt (buf : Bytes) (k : ℕ) : UInt64 × UInt64 :=
  (word buf (8 * (2 * k + 2)), word buf (8 * (2 * k + 1)))

/-- The entries that the loops look at. -/
def entries (buf : Bytes) : List (UInt64 × UInt64) := (List.range (nr buf)).map (entryAt buf)

/-- The body of the outer loop: the loop over the events of the group. -/
def fillEntry (ids : List UInt64) (values : List UInt64) (entry : UInt64 × UInt64) : List UInt64 :=
  List.zipWith (fun id value => if entry.1 = id then entry.2 else value) ids values

/-- The values of a group: all are set to 0, and then filled. -/
def fillValues (ids : List UInt64) (buf : Bytes) : List UInt64 :=
  (entries buf).foldl (fillEntry ids) (List.replicate ids.length 0)

/-! ### The loops -/

/-- Why the program stops early; an access behind `buf` is undefined. -/
inductive Stop
  | tooManyCpus | failedRead | outOfBounds
  deriving DecidableEq

/-- A read of a run. -/
structure Slot where
  round : ℕ
  cpu : ℕ
  group : Group

/-- The results of all reads of a run. -/
abbrev Reads (e : EventIds) := ∀ s : Slot, ReadResult (e.ids s.cpu s.group)

/-- A row of `cpu.csv`. The round stands for its time. -/
structure CsvRow where
  round : ℕ
  cpu : ℕ
  cells : List UInt64
  deriving DecidableEq

section Loops
variable {e : EventIds} (reads : Reads e)

/-- The reads of a CPU, from a group on. -/
def readGroups (round cpu : ℕ) : List Group → Bytes → Except Stop (List UInt64) × Bytes
  | [], buf => (.ok [], buf)
  | g :: gs, buf =>
    match reads ⟨round, cpu, g⟩ with
    | .failed => (.error .failedRead, buf)
    | .delivered record n _ =>
      let buf' := overwrite record.words n buf
      if capacity < nr buf' then (.error .outOfBounds, buf')
      else
        match readGroups round cpu gs buf' with
        | (.error stop, buf'') => (.error stop, buf'')
        | (.ok values, buf'') => (.ok (fillValues (e.ids cpu g) buf' ++ values), buf'')

/-- The loop over the CPUs, round by round. A round whose `cpu.csv` does not open has no rows. -/
def collectRows (opened : ℕ → Bool) : List (ℕ × ℕ) → Bytes → List CsvRow × Option Stop
  | [], _ => ([], none)
  | (round, cpu) :: rest, buf =>
    match readGroups reads round cpu groups buf with
    | (.error stop, _) => ([], some stop)
    | (.ok cells, buf') =>
      let r := collectRows opened rest buf'
      (if opened round then ⟨round, cpu, cells⟩ :: r.1 else r.1, r.2)

/-- The rounds and the CPUs. -/
def samples (rounds cpuCount : ℕ) : List (ℕ × ℕ) :=
  (List.range rounds).flatMap fun round => (List.range cpuCount).map fun cpu => (round, cpu)

/-- `main`, stopped after some rounds. -/
def collect (opened : ℕ → Bool) (rounds cpuCount : ℕ) (buf : Bytes) : List CsvRow × Option Stop :=
  if maxCpus < cpuCount then ([], some .tooManyCpus)
  else collectRows reads opened (samples rounds cpuCount) buf

/-! ### What the rows should be -/

/-- The values that the reads of a round and a CPU report. -/
def reportedCells (round cpu : ℕ) : List UInt64 :=
  groups.flatMap fun g => (e.ids cpu g).map (reads ⟨round, cpu, g⟩).reported

/-- Every row has what its own reads report. -/
def Fresh (rows : List CsvRow) : Prop :=
  ∀ row ∈ rows, row.cells = reportedCells reads row.round row.cpu

/-- All reads of a round and a CPU succeed. -/
def complete (p : ℕ × ℕ) : Bool := groups.all fun g => !(reads ⟨p.1, p.2, g⟩).isFailed

/-- The reads of a list of samples. -/
def slots (ps : List (ℕ × ℕ)) : List Slot := ps.flatMap fun p => groups.map (Slot.mk p.1 p.2)

end Loops

/-- What a read leaves in the buffer behind what it delivers has no id of its group. -/
structure Clean {ids : List UInt64} (record : Record ids) (n : ℕ) (buf : Bytes) : Prop where
  inside : nr (overwrite record.words n buf) ≤ capacity
  foreign : ∀ p ∈ (entries (overwrite record.words n buf)).drop (whole n), p.1 ∉ ids

/-- The reads up to a failed one are all clean. -/
def AllClean {e : EventIds} (reads : Reads e) : List Slot → Bytes → Prop
  | [], _ => True
  | s :: ss, buf =>
    match reads s with
    | .failed => True
    | .delivered record n _ =>
      Clean record n buf ∧ AllClean reads ss (overwrite record.words n buf)

/-! ### One read -/

theorem getElem?_pairs {α : Type*} : ∀ (l : List (α × α)) (k : ℕ),
    (l.flatMap fun p => [p.2, p.1])[2 * k]? = l[k]?.map Prod.snd ∧
      (l.flatMap fun p => [p.2, p.1])[2 * k + 1]? = l[k]?.map Prod.fst
  | [], _ => ⟨rfl, rfl⟩
  | _ :: _, 0 => ⟨rfl, rfl⟩
  | _ :: l, k + 1 => getElem?_pairs l k

section Read
variable {ids : List UInt64} (record : Record ids) (buf : Bytes)

theorem nr_overwrite {n : ℕ} (hn : 8 ≤ n) :
    nr (overwrite record.words n buf) = record.entries.length := by
  have hword : word (overwrite record.words n buf) (8 * 0) =
      UInt64.ofNat record.entries.length := word_overwrite buf rfl hn
  have hlt : record.entries.length < 2 ^ 64 :=
    record.fits.trans_lt (by decide)
  rw [nr, ← Nat.mul_zero 8, hword, UInt64.toNat_ofNat', Nat.mod_eq_of_lt hlt]

/-- An entry that is delivered whole is in its place. -/
theorem entryAt_overwrite {n k : ℕ} (hk : k < whole n) {p : UInt64 × UInt64}
    (hp : record.entries[k]? = some p) : entryAt (overwrite record.words n buf) k = p := by
  obtain ⟨hvalue, hid⟩ := getElem?_pairs record.entries k
  rw [hp, Option.map_some] at hvalue hid
  unfold whole at hk
  have hwords : ∀ j, record.words[j + 1]? = (record.entries.flatMap fun p => [p.2, p.1])[j]? :=
    fun j => rfl
  unfold entryAt
  rw [word_overwrite buf ((hwords (2 * k + 1)).trans hid) (by omega),
    word_overwrite buf ((hwords (2 * k)).trans hvalue) (by omega)]

/-- **What a read delivers comes first in the buffer.** -/
theorem take_entries {n : ℕ} (hn : n ≤ record.size) :
    (entries (overwrite record.words n buf)).take (whole n) =
      record.entries.take (whole n) := by
  have hle : whole n ≤ record.entries.length := by
    unfold whole
    unfold Record.size at hn
    omega
  rcases (whole n).eq_zero_or_pos with hzero | hpos
  · rw [hzero, List.take_zero, List.take_zero]
  · have hn8 : 8 ≤ n := by
      unfold whole at hpos
      omega
    have hlen : whole n ≤ (entries (overwrite record.words n buf)).length := by
      rw [entries, List.length_map, List.length_range, nr_overwrite record buf hn8]
      exact hle
    refine List.ext_getElem (by rw [List.length_take_of_le hlen, List.length_take_of_le hle]) ?_
    intro k hk hk'
    rw [List.length_take_of_le hlen] at hk
    rw [List.getElem_take, List.getElem_take]
    simp only [entries, List.getElem_map, List.getElem_range]
    exact entryAt_overwrite record buf hk (List.getElem?_eq_getElem _)

theorem whole_size : whole record.size = record.entries.length := by
  unfold whole Record.size
  omega

theorem nr_full : nr (overwrite record.words record.size buf) = record.entries.length :=
  nr_overwrite record buf (Nat.le_add_right _ _)

/-- A full read leaves nothing behind its record. -/
theorem entries_full : entries (overwrite record.words record.size buf) = record.entries := by
  have hlen : (entries (overwrite record.words record.size buf)).length =
      record.entries.length := by
    rw [entries, List.length_map, List.length_range, nr_full]
  have htake := take_entries record buf le_rfl
  rwa [whole_size, List.take_length, List.take_of_length_le hlen.le] at htake

theorem clean_full : Clean record record.size buf := by
  refine ⟨?_, fun p hp => ?_⟩
  · rw [nr_full]
    exact record.fits
  · rw [entries_full, whole_size, List.drop_length] at hp
    exact absurd hp List.not_mem_nil

/-- The loops leave every event with the last value that has its id. -/
theorem foldl_fillEntry (ids : List UInt64) : ∀ (es : List (UInt64 × UInt64))
    (f : UInt64 → UInt64), es.foldl (fillEntry ids) (ids.map f) =
      ids.map fun id => (lastVal id es).getD (f id)
  | [], _ => rfl
  | p :: es, f => by
    have hstep : fillEntry ids (ids.map f) p =
        ids.map fun id => if p.1 = id then p.2 else f id := by
      unfold fillEntry
      rw [List.zipWith_map_right, List.zipWith_self]
    rw [List.foldl_cons, hstep, foldl_fillEntry ids es]
    refine List.map_congr_left fun id _ => ?_
    rw [lastVal]
    rcases lastVal id es with _ | v
    · rw [Option.none_or, Option.getD_none]
      split_ifs <;> rfl
    · rfl

theorem fillValues_eq :
    fillValues ids buf = ids.map fun id => (lastVal id (entries buf)).getD 0 := by
  unfold fillValues
  rw [← foldl_fillEntry ids (entries buf) fun _ => 0, List.map_const']

/-- **A clean read fills in what it reports.** -/
theorem fillValues_clean {n : ℕ} (hn : n ≤ record.size) (h : Clean record n buf) :
    fillValues ids (overwrite record.words n buf) =
      ids.map (ReadResult.delivered record n hn).reported := by
  rw [fillValues_eq]
  refine List.map_congr_left fun id hid => ?_
  have hnone : lastVal id ((entries (overwrite record.words n buf)).drop (whole n)) = none := by
    rw [lastVal_eq_none]
    intro hmem
    obtain ⟨p, hp, rfl⟩ := List.mem_map.mp hmem
    exact h.foreign p hp hid
  rw [← List.take_append_drop (whole n) (entries (overwrite record.words n buf)), lastVal_append,
    hnone, Option.none_or, take_entries record buf hn]
  rfl

/-- A full read reports the value of every event. -/
theorem reported_full (hids : ids.Nodup) {p : UInt64 × UInt64} (hp : p ∈ record.entries) :
    (ReadResult.delivered record record.size le_rfl).reported p.1 = p.2 := by
  have hnodup := record.ids_perm.nodup_iff.mpr hids
  obtain ⟨v, hv⟩ := Option.ne_none_iff_exists'.mp
    fun hnone => lastVal_eq_none.mp hnone (List.mem_map_of_mem hp)
  have heq : (p.1, v) = p :=
    List.inj_on_of_nodup_map hnodup (mem_of_lastVal hv) hp rfl
  unfold ReadResult.reported
  simp only
  rw [whole_size, List.take_length, hv, Option.getD_some, ← heq]

end Read

/-! ### The run -/

section Run
variable {e : EventIds} (reads : Reads e)

/-- **The reads of a CPU**: if all are clean and none fails, they leave what they report. -/
theorem readGroups_clean (round cpu : ℕ) {ss : List Slot} : ∀ (gs : List Group) (buf : Bytes),
    AllClean reads (gs.map (Slot.mk round cpu) ++ ss) buf →
      (gs.all (fun g => !(reads ⟨round, cpu, g⟩).isFailed) = true ∧
        ∃ buf', readGroups reads round cpu gs buf =
            (.ok (gs.flatMap fun g => (e.ids cpu g).map (reads ⟨round, cpu, g⟩).reported), buf') ∧
          AllClean reads ss buf') ∨
      (gs.all (fun g => !(reads ⟨round, cpu, g⟩).isFailed) = false ∧
        (readGroups reads round cpu gs buf).1 = .error .failedRead)
  | [], buf, h => Or.inl ⟨rfl, buf, rfl, h⟩
  | g :: gs, buf, h => by
    rw [List.map_cons, List.cons_append, AllClean] at h
    rw [readGroups, List.all_cons, List.flatMap_cons]
    rcases hread : reads ⟨round, cpu, g⟩ with _ | ⟨record, n, hn⟩
    · exact Or.inr ⟨rfl, rfl⟩
    · simp only [hread] at h
      obtain ⟨hclean, hrest⟩ := h
      simp only
      rw [if_neg (not_lt.mpr hclean.inside), fillValues_clean record buf hn hclean]
      obtain ⟨hall, buf', hrun, hss⟩ | ⟨hall, hrun⟩ := readGroups_clean round cpu gs _ hrest
      · refine Or.inl ⟨hall, buf', ?_, hss⟩
        rw [hrun]
      · refine Or.inr ⟨hall, ?_⟩
        rcases hgs : readGroups reads round cpu gs (overwrite record.words n buf) with ⟨r, buf'⟩
        rw [hgs] at hrun
        simp only at hrun
        subst hrun
        rfl

/-- The row of a round and a CPU. -/
def reportedRow (p : ℕ × ℕ) : CsvRow := ⟨p.1, p.2, reportedCells reads p.1 p.2⟩

/-- **The rows of clean reads**: up to the first failed read, what the reads report. -/
theorem collectRows_clean (opened : ℕ → Bool) : ∀ (ps : List (ℕ × ℕ)) (buf : Bytes),
    AllClean reads (slots ps) buf →
      collectRows reads opened ps buf =
        (((ps.takeWhile (complete reads)).filter fun p => opened p.1).map (reportedRow reads),
          if ps.all (complete reads) then none else some .failedRead)
  | [], _, _ => rfl
  | (round, cpu) :: ps, buf, h => by
    obtain ⟨hall, buf', hrun, hss⟩ | ⟨hall, hrun⟩ := readGroups_clean reads round cpu groups buf h
    · have hcomplete : complete reads (round, cpu) = true := hall
      rw [collectRows, hrun]
      simp only
      rw [collectRows_clean opened ps buf' hss, List.takeWhile_cons_of_pos hcomplete,
        List.all_cons, hcomplete, Bool.true_and, List.filter_cons]
      simp only
      split_ifs <;> rfl
    · have hcomplete : complete reads (round, cpu) = false := hall
      rcases hgs : readGroups reads round cpu groups buf with ⟨r, buf'⟩
      rw [hgs] at hrun
      simp only at hrun
      subst hrun
      have hstop : ¬ complete reads (round, cpu) = true := by
        rw [hcomplete]
        exact Bool.false_ne_true
      rw [collectRows, hgs, List.takeWhile_cons_of_neg hstop, List.all_cons, hcomplete]
      rfl

/-! ### Reads of all or nothing -/

/-- Every read delivers its whole record or nothing; and if nothing, then a record was delivered
before, the last one to another CPU or group. `last` is whose record that is. -/
def Replaced : Option (ℕ × Group) → List Slot → Prop
  | _, [] => True
  | last, s :: ss =>
    match reads s with
    | .failed => True
    | .delivered record n _ =>
      (n = record.size ∧ Replaced (some (s.cpu, s.group)) ss) ∨
        (n = 0 ∧ (∃ l, last = some l ∧ l ≠ (s.cpu, s.group)) ∧ Replaced last ss)

/-- The buffer has a record of a CPU and a group. -/
def HasRecord (e : EventIds) (buf : Bytes) (l : ℕ × Group) : Prop :=
  l.1 < maxCpus ∧ ∃ record : Record (e.ids l.1 l.2), entries buf = record.entries

/-- Another record in the buffer does no harm. -/
theorem clean_zero {s : Slot} (hcpu : s.cpu < maxCpus) (record : Record (e.ids s.cpu s.group))
    {buf : Bytes} {l : ℕ × Group} (hl : HasRecord e buf l) (hne : l ≠ (s.cpu, s.group)) :
    Clean record 0 buf := by
  obtain ⟨hlcpu, record', hentries⟩ := hl
  have hnr : nr buf = (entries buf).length := by
    rw [entries, List.length_map, List.length_range]
  refine ⟨?_, fun p hp hid => ?_⟩
  · rw [overwrite_zero, hnr, hentries]
    exact record'.fits
  · rw [overwrite_zero, hentries] at hp
    have hid' : p.1 ∈ e.ids l.1 l.2 :=
      record'.ids_perm.mem_iff.mp (List.mem_map_of_mem (List.mem_of_mem_drop hp))
    obtain ⟨hc, hg⟩ := e.distinct _ hlcpu _ hcpu _ _ _ hid' hid
    exact hne (Prod.ext hc hg)

theorem allClean_of_replaced : ∀ (ss : List Slot) (last : Option (ℕ × Group)) (buf : Bytes),
    (∀ s ∈ ss, s.cpu < maxCpus) → (∀ l, last = some l → HasRecord e buf l) →
      Replaced reads last ss → AllClean reads ss buf
  | [], _, _, _, _, _ => trivial
  | s :: ss, last, buf, hcpus, hlast, h => by
    obtain ⟨hcpu, hcpus⟩ := List.forall_mem_cons.mp hcpus
    rw [Replaced] at h
    rw [AllClean]
    rcases hread : reads s with _ | ⟨record, n, hn⟩
    · trivial
    · simp only [hread] at h
      simp only
      obtain ⟨rfl, hrest⟩ | ⟨rfl, ⟨l, hl, hne⟩, hrest⟩ := h
      · refine ⟨clean_full record buf, allClean_of_replaced ss _ _ hcpus (fun l hl => ?_) hrest⟩
        obtain rfl := Option.some.inj hl
        exact ⟨hcpu, record, entries_full record buf⟩
      · refine ⟨clean_zero hcpu record (hlast l hl) hne, ?_⟩
        rw [overwrite_zero]
        exact allClean_of_replaced ss last buf hcpus hlast hrest

theorem cpu_lt_of_mem_slots {rounds cpuCount : ℕ} {s : Slot}
    (hs : s ∈ slots (samples rounds cpuCount)) : s.cpu < cpuCount := by
  simp only [slots, samples, List.mem_flatMap, List.mem_map, List.mem_range] at hs
  obtain ⟨p, ⟨round, -, cpu, hcpu, rfl⟩, g, -, rfl⟩ := hs
  exact hcpu

/-- **When no counter is stale**: if every read is clean, the rows have what their own reads report,
for all rounds and CPUs in front of the first failed read. Where reads deliver all or nothing this
is so if every read that delivers nothing comes after a record, the last one of another CPU or
group. -/
theorem collect_reported (opened : ℕ → Bool) (rounds cpuCount : ℕ) (buf : Bytes) :
    (AllClean reads (slots (samples rounds cpuCount)) buf →
      Fresh reads (collect reads opened rounds cpuCount buf).1 ∧
      (cpuCount ≤ maxCpus → collect reads opened rounds cpuCount buf =
        ((((samples rounds cpuCount).takeWhile (complete reads)).filter fun p => opened p.1).map
            (reportedRow reads),
          if (samples rounds cpuCount).all (complete reads) then none else some .failedRead))) ∧
    (cpuCount ≤ maxCpus → Replaced reads none (slots (samples rounds cpuCount)) →
      AllClean reads (slots (samples rounds cpuCount)) buf) := by
  refine ⟨fun hclean => ?_, fun hle hreplaced => ?_⟩
  · have hrows : cpuCount ≤ maxCpus → collect reads opened rounds cpuCount buf = _ := fun hle =>
      (if_neg (not_lt.mpr hle)).trans (collectRows_clean reads opened _ buf hclean)
    refine ⟨fun row hrow => ?_, hrows⟩
    rcases le_or_gt cpuCount maxCpus with hle | hgt
    · rw [hrows hle] at hrow
      obtain ⟨p, -, rfl⟩ := List.mem_map.mp hrow
      rfl
    · rw [collect, if_pos hgt] at hrow
      exact absurd hrow List.not_mem_nil
  · exact allClean_of_replaced reads _ none buf
      (fun s hs => (cpu_lt_of_mem_slots hs).trans_le hle) nofun hreplaced

end Run

/-! ### An old value -/

/-- The place of a group. -/
def Group.index : Group → ℕ
  | .hw => 0
  | .cache => 1
  | .tlb => 2
  | .l2 => 3
  | .dtlb => 4

theorem Group.events_le (g : Group) : g.events ≤ 5 := by cases g <;> decide

theorem Group.index_le (g : Group) : g.index ≤ 4 := by cases g <;> decide

theorem Group.index_inj {g g' : Group} (h : g.index = g'.index) : g = g' := by
  cases g <;> cases g' <;> first | rfl | cases h

theorem ofNat_inj {a b : ℕ} (ha : a < 8192) (hb : b < 8192)
    (h : UInt64.ofNat a = UInt64.ofNat b) : a = b := by
  have htoNat := congrArg UInt64.toNat h
  rwa [UInt64.toNat_ofNat', UInt64.toNat_ofNat', Nat.mod_eq_of_lt (ha.trans (by decide)),
    Nat.mod_eq_of_lt (hb.trans (by decide))] at htoNat

/-- Ten events for every CPU. -/
def tenEvents : EventIds where
  ids cpu g := (List.range g.events).map fun i => UInt64.ofNat (40 * cpu + 8 * g.index + i + 1)
  length_ids cpu g := by rw [List.length_map, List.length_range]
  nodup cpu hcpu g := by
    unfold maxCpus at hcpu
    have hevents := g.events_le
    have hindex := g.index_le
    refine List.Nodup.map_on (fun i hi j hj heq => ?_) List.nodup_range
    rw [List.mem_range] at hi hj
    have hsum := ofNat_inj (by omega) (by omega) heq
    omega
  distinct cpu hcpu cpu' hcpu' g g' id hid hid' := by
    unfold maxCpus at hcpu hcpu'
    obtain ⟨i, hi, rfl⟩ := List.mem_map.mp hid
    obtain ⟨j, hj, heq⟩ := List.mem_map.mp hid'
    rw [List.mem_range] at hi hj
    have hevents := g.events_le
    have hevents' := g'.events_le
    have hindex := g.index_le
    have hindex' := g'.index_le
    have hsum := ofNat_inj (by omega) (by omega) heq
    exact ⟨by omega, Group.index_inj (by omega)⟩

/-- The record in which every event has its id and 100 more. -/
def hundredMore (s : Slot) : Record (tenEvents.ids s.cpu s.group) where
  entries := (tenEvents.ids s.cpu s.group).map fun id => (id, id + 100)
  ids_perm := by
    rw [List.map_map]
    exact List.Perm.of_eq (List.map_id _)
  fits := by
    rw [List.length_map, tenEvents.length_ids]
    exact s.group.events_le.trans (by decide)

/-- Reads of whole records, but for the second group. -/
def cacheSilent : Reads tenEvents := fun s =>
  if s.group = .cache then .delivered (hundredMore s) 0 (Nat.zero_le _)
  else .delivered (hundredMore s) (hundredMore s).size le_rfl

theorem collect_reported_cacheSilent :
    Fresh cacheSilent (collect cacheSilent (fun _ => true) 1 1 fun _ => 0).1 := by
  obtain ⟨hfresh, hclean⟩ := collect_reported cacheSilent (fun _ => true) 1 1 fun _ => 0
  have hother : ((0, .hw) : ℕ × Group) ≠ (0, .cache) := by decide
  refine (hfresh (hclean (by decide) (Or.inl ⟨rfl, Or.inr ⟨rfl, ⟨_, rfl, hother⟩, ?_⟩⟩))).1
  exact Or.inl ⟨rfl, Or.inl ⟨rfl, Or.inl ⟨rfl, trivial⟩⟩⟩

/-- The first group is read in the first round only. All other reads deliver nothing. -/
def onlyFirst : Reads tenEvents := fun s =>
  if s.round = 0 ∧ s.group = .hw then .delivered (hundredMore s) (hundredMore s).size le_rfl
  else .delivered (hundredMore s) 0 (Nat.zero_le _)

/-- The second row has the values of the first, although no read of its round delivers any. -/
theorem not_fresh_twoRounds :
    (collect onlyFirst (fun _ => true) 2 1 fun _ => 0).1 =
        [⟨0, 0, [101, 102, 103, 104, 105, 0, 0, 0, 0, 0]⟩,
          ⟨1, 0, [101, 102, 103, 104, 105, 0, 0, 0, 0, 0]⟩] ∧
      reportedCells onlyFirst 1 0 = List.replicate 10 0 ∧
      ¬ Fresh onlyFirst (collect onlyFirst (fun _ => true) 2 1 fun _ => 0).1 := by
  have hrows : (collect onlyFirst (fun _ => true) 2 1 fun _ => 0).1 =
      [⟨0, 0, [101, 102, 103, 104, 105, 0, 0, 0, 0, 0]⟩,
        ⟨1, 0, [101, 102, 103, 104, 105, 0, 0, 0, 0, 0]⟩] := by decide +kernel
  have hcells : reportedCells onlyFirst 1 0 = List.replicate 10 0 := by decide +kernel
  refine ⟨hrows, hcells, fun hfresh => ?_⟩
  rw [hrows] at hfresh
  have hrow := hfresh ⟨1, 0, [101, 102, 103, 104, 105, 0, 0, 0, 0, 0]⟩
    (List.mem_cons_of_mem _ List.mem_cons_self)
  rw [hcells] at hrow
  exact absurd hrow (by decide)

end Magm.Collect.Counters
