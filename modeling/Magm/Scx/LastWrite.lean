import Magm.Scx.Layout
import Mathlib.Logic.Function.Basic

/-! # Loading is a fold that survives failing updates

The updates of the target map succeed or fail in any pattern (`patternCalls`). The loader writes the
good rows of a plan in file order, leaves out those whose update fails, and counts the others
(`loadPlanCsv_lastWriteWins`). A good row is described by the fields of its line (`fieldRow`). -/

namespace Magm.Scx.LastWrite

open Magm.Lib.Chars Magm.Lib.Stdio Magm.Scx.Loader Magm.Scx.Layout

/-! ### Updates that fail in a pattern -/

/-- The maps, and how often an update of the target map has been tried. -/
structure Kernel where
  target : ℕ → Option ℕ
  stats : MagmStat
  updates : ℕ

/-- The `i`-th update of the target map succeeds when `ok i`, the calls on the statistics
always. -/
def patternCalls (ok : ℕ → Bool) : MapCalls Kernel where
  updateTarget s key value :=
    if ok s.updates then
      (⟨Function.update s.target key (some value), s.stats, s.updates + 1⟩, true)
    else (⟨s.target, s.stats, s.updates + 1⟩, false)
  lookupStat s := .ok s.stats
  updateStat s stat := ({ s with stats := stat }, none)

/-- The rows whose update succeeds; the first is the `i`-th update. -/
def taken {α : Type*} (ok : ℕ → Bool) : ℕ → List α → List α
  | _, [] => []
  | i, p :: rows => if ok i then p :: taken ok (i + 1) rows else taken ok (i + 1) rows

/-- The map updated by the rows in order. -/
def writeAll (m : ℕ → Option ℕ) (rows : List (ℕ × ℕ)) : ℕ → Option ℕ :=
  rows.foldl (fun m p => Function.update m p.1 (some p.2)) m

/-- The statistics after `n` calls of `bump_configured`. -/
def bumped (stats : MagmStat) (n : ℕ) : MagmStat :=
  { stats with configuredTasks := (stats.configuredTasks + n) % 2 ^ 32 }

/-- The kernel after an update for each of `rows`. -/
def Kernel.after (ok : ℕ → Bool) (s : Kernel) (rows : List (ℕ × ℕ)) : Kernel where
  target := writeAll s.target (taken ok s.updates rows)
  stats := bumped s.stats (taken ok s.updates rows).length
  updates := s.updates + rows.length

theorem bumped_zero {stats : MagmStat} (h : stats.configuredTasks < 2 ^ 32) :
    bumped stats 0 = stats := by
  unfold bumped
  rw [Nat.add_zero, Nat.mod_eq_of_lt h]

theorem bumped_bump (stats : MagmStat) (n : ℕ) : bumped stats.bump n = bumped stats (n + 1) := by
  unfold bumped MagmStat.bump
  simp only [MagmStat.mk.injEq, and_true]
  omega

theorem configuredTasks_bump_lt (stats : MagmStat) : stats.bump.configuredTasks < 2 ^ 32 :=
  Nat.mod_lt _ (by decide)

theorem install_pattern (ok : ℕ → Bool) (s : Kernel) (key value : ℕ) :
    install (patternCalls ok) s key value =
      if ok s.updates then
        (⟨Function.update s.target key (some value), s.stats.bump, s.updates + 1⟩, true)
      else (⟨s.target, s.stats, s.updates + 1⟩, false) := by
  unfold install patternCalls bumpConfigured writeStat
  by_cases h : ok s.updates = true
  · simp only [if_pos h]
  · simp only [if_neg h]

/-- **The loop over the good rows**: what each row leaves behind is its write and its count. -/
theorem installAll_pattern (ok : ℕ → Bool) : ∀ (rows : List (ℕ × ℕ)) (s : Kernel) (loaded : ℕ),
    s.stats.configuredTasks < 2 ^ 32 →
      installAll (patternCalls ok) rows s loaded =
        (s.after ok rows, loaded + (taken ok s.updates rows).length)
  | [], s, loaded, h => by
    rw [installAll, Kernel.after, taken, List.length_nil, bumped_zero h]
    rfl
  | p :: rows, s, loaded, h => by
    rw [installAll, install_pattern, Kernel.after, taken]
    by_cases hok : ok s.updates = true
    · simp only [if_pos hok, if_true]
      rw [installAll_pattern ok rows _ _ (configuredTasks_bump_lt _)]
      simp only [Kernel.after, List.length_cons, bumped_bump, writeAll, List.foldl_cons,
        Prod.mk.injEq, Kernel.mk.injEq, true_and]
      omega
    · simp only [if_neg hok, Bool.false_eq_true, if_false]
      rw [installAll_pattern ok rows ⟨s.target, s.stats, s.updates + 1⟩ loaded h]
      simp only [Kernel.after, List.length_cons, Prod.mk.injEq, Kernel.mk.injEq, true_and, and_true]
      omega

/-! ### Good rows by their fields -/

def fields (line : Text) : List Text := line.splitOn ','

/-- The number after the first `pid=` of a field. -/
def spelledTid (field : Text) : Option ℤ := (afterFirst "pid=".toList field).bind strtol

/-- The TID and the CPU of a row with a TID `> 0` and a CPU `≥ 0`. -/
def fieldRow (k c : ℕ) (line : Text) : Option (ℕ × ℕ) :=
  ((fields line)[k]?.bind spelledTid).bind fun tid =>
    ((fields line)[c]?.bind strtol).bind fun cpu =>
      if 0 < tid ∧ 0 ≤ cpu then some (tid.toNat, cpu.toNat) else none

/-- A blank line, or a line without empty fields, as a string that fits the buffer. -/
structure PlainLine (line : Text) : Prop where
  short : line.length < 4096
  noNewline : '\n' ∉ line
  noNul : '\x00' ∉ line
  filled : line = [] ∨ [] ∉ fields line

/-- The numbers of a row are in the range of an `int`. -/
structure IntRange (k c : ℕ) (line : Text) : Prop where
  tid : ∀ z ∈ (fields line)[k]?.bind spelledTid, -2 ^ 31 ≤ z ∧ z < 2 ^ 31
  cpu : ∀ z ∈ (fields line)[c]?.bind strtol, -2 ^ 31 ≤ z ∧ z < 2 ^ 31

instance (line : Text) : Decidable (PlainLine line) :=
  decidable_of_iff (line.length < 4096 ∧ '\n' ∉ line ∧ '\x00' ∉ line ∧
    (line = [] ∨ ∀ f ∈ fields line, f ≠ []))
    ⟨fun h => ⟨h.1, h.2.1, h.2.2.1, h.2.2.2.imp_right fun hf hmem => hf [] hmem rfl⟩,
      fun h => ⟨h.short, h.noNewline, h.noNul,
        h.filled.imp_right fun hf _ hmem he => hf (he ▸ hmem)⟩⟩

instance (k c : ℕ) (line : Text) : Decidable (IntRange k c line) :=
  decidable_of_iff ((∀ z ∈ (fields line)[k]?.bind spelledTid, -2 ^ 31 ≤ z ∧ z < 2 ^ 31) ∧
    ∀ z ∈ (fields line)[c]?.bind strtol, -2 ^ 31 ≤ z ∧ z < 2 ^ 31)
    ⟨fun h => ⟨h.1, h.2⟩, fun h => ⟨h.tid, h.cpu⟩⟩

theorem parseInt_eq_strtol {text : Text} (h : ∀ z ∈ strtol text, -2 ^ 31 ≤ z ∧ z < 2 ^ 31) :
    parseInt text = strtol text := by
  unfold parseInt
  rcases hz : strtol text with _ | z
  · rfl
  · obtain ⟨hlo, hhi⟩ := h z hz
    rw [Option.bind_some, if_pos (by omega), toInt, Int.bmod_eq_of_le (by omega) (by omega)]

theorem csvLine_fields (line : Text) : csvLine (fields line) = line := List.intercalate_splitOn ','

theorem tidOf_eq_spelledTid {field : Text}
    (h : ∀ z ∈ spelledTid field, -2 ^ 31 ≤ z ∧ z < 2 ^ 31) : tidOf field = spelledTid field := by
  refine Option.bind_congr fun rest hrest => parseInt_eq_strtol fun z hz => h z ?_
  rw [spelledTid, hrest]
  exact hz

theorem toUnsigned_of_range {z : ℤ} (h0 : 0 ≤ z) (h : z < 2 ^ 31) : toUnsigned z = z.toNat := by
  unfold toUnsigned
  rw [Int.emod_eq_of_lt h0 (by omega)]

theorem fieldRow_nil (k c : ℕ) : fieldRow k c [] = none := by
  unfold fieldRow fields
  rw [List.splitOn_nil]
  rcases k with _ | k <;> rfl

section PlainLine
variable {line : Text} (h : PlainLine line)
include h

theorem PlainLine.mem_fields {f : Text} (hf : f ∈ fields line) :
    ',' ∉ f ∧ '\n' ∉ f ∧ '\x00' ∉ f := by
  have hmem : ∀ x ∈ f, x ∈ line := fun x hx => csvLine_fields line ▸ mem_csvLine hf hx
  exact ⟨notMem_of_mem_splitOn hf, fun hx => h.noNewline (hmem _ hx), fun hx => h.noNul (hmem _ hx)⟩

/-- Nothing of such a line is dropped. -/
theorem PlainLine.seen_fields (hne : line ≠ []) : seen (fields line) = fields line := by
  have hfilled : [] ∉ fields line := h.filled.resolve_left hne
  rw [seen, untilNul_eq_self fun f hf => (h.mem_fields hf).2.2, List.filter_eq_self]
  intro f hf
  simpa using fun he : f = [] => hfilled (he ▸ hf)

theorem PlainLine.strtokR (hne : line ≠ []) : strtokR delim line = fields line := by
  have hplain : ∀ f ∈ fields line, ',' ∉ f ∧ '\n' ∉ f := fun f hf =>
    ⟨(h.mem_fields hf).1, (h.mem_fields hf).2.1⟩
  have htokens := strtokR_csvLine hplain
  rwa [csvLine_fields, h.seen_fields hne] at htokens

/-- **The loader takes from a plain line** what its fields say. -/
theorem PlainLine.goodRow {k c : ℕ} (hkc : k ≠ c) (hrange : IntRange k c line) :
    goodRow k c line = fieldRow k c line := by
  by_cases hne : line = []
  · rw [hne, goodRow_nil, fieldRow_nil]
  have htid : (fields line)[k]?.bind tidOf = (fields line)[k]?.bind spelledTid :=
    Option.bind_congr fun f hf => tidOf_eq_spelledTid fun z hz => hrange.tid z (by rwa [hf])
  have hcpu : (fields line)[c]?.bind parseInt = (fields line)[c]?.bind strtol :=
    Option.bind_congr fun f hf => parseInt_eq_strtol fun z hz => hrange.cpu z (by rwa [hf])
  unfold Loader.goodRow fieldRow
  rw [readRow_eq hkc, h.strtokR hne, htid, hcpu]
  rcases hk : (fields line)[k]?.bind spelledTid with _ | tid
  · rfl
  rcases hc : (fields line)[c]?.bind strtol with _ | cpu
  · simp only [Option.getD_some, Option.getD_none, Option.bind_some, Option.bind_none]
    exact if_neg fun hneg => absurd hneg.2 (by decide)
  · simp only [Option.getD_some, Option.bind_some]
    split_ifs with hgood
    · rw [toUnsigned_of_range hgood.1.le (hrange.tid tid hk).2,
        toUnsigned_of_range hgood.2 (hrange.cpu cpu hc).2]
    · rfl

end PlainLine

/-! ### The header -/

/-- The place of a column in the header. -/
def column (name : Text) (header : Text) : ℕ := (fields header).idxOf name

section Header
variable {header : Text} (h : PlainLine header)
include h

theorem headerCols_fields : headerCols header =
    (lastPlace "thread_key".toList (seen (fields header)),
      lastPlace "target_cpu".toList (seen (fields header))) := by
  have hcols := headerCols_csvLine fun f hf => ⟨(h.mem_fields hf).1, (h.mem_fields hf).2.1⟩
  rwa [csvLine_fields] at hcols

theorem headerCols_of_count (hk : (fields header).count "thread_key".toList = 1)
    (hc : (fields header).count "target_cpu".toList = 1) :
    headerCols header =
      (some (column "thread_key".toList header), some (column "target_cpu".toList header)) := by
  have hne : header ≠ [] := by
    rintro rfl
    exact absurd hk (by decide)
  have hmem : ∀ {name}, (fields header).count name = 1 → name ∈ fields header := fun {name} hn =>
    List.count_pos_iff.mp (by rw [hn]; decide)
  rw [headerCols_fields h, h.seen_fields hne,
    lastPlace_eq_some hk (List.getElem?_idxOf (hmem hk)),
    lastPlace_eq_some hc (List.getElem?_idxOf (hmem hc))]
  rfl

/-- Without one of the columns there is no plan. -/
theorem headerCols_of_notMem
    (hmissing : "thread_key".toList ∉ fields header ∨ "target_cpu".toList ∉ fields header) :
    ∀ k c, headerCols header ≠ (some k, some c) := by
  have hsub : seen (fields header) ⊆ fields header := by
    rw [seen, untilNul_eq_self fun f hf => (h.mem_fields hf).2.2]
    exact List.filter_sublist.subset
  intro k c
  rw [headerCols_fields h, Ne, Prod.mk.injEq, not_and_or]
  refine hmissing.imp (fun hn => ?_) fun hn => ?_
  · rw [lastPlace_eq_none fun hm => hn (hsub hm)]
    simp
  · rw [lastPlace_eq_none fun hm => hn (hsub hm)]
    simp

end Header

/-! ### The loader -/

/-- A plan text by its lines, the last of them empty when the text ends in a newline. -/
structure PlainPlan (text header : Text) (lines : List Text) : Prop where
  split : text.splitOn '\n' = header :: lines
  plain : ∀ l ∈ header :: lines, PlainLine l
  range : ∀ l ∈ lines,
    IntRange (column "thread_key".toList header) (column "target_cpu".toList header) l

/-- The good rows of a plan, in file order. -/
def goodRows (header : Text) (lines : List Text) : List (ℕ × ℕ) :=
  lines.filterMap
    (fieldRow (column "thread_key".toList header) (column "target_cpu".toList header))

section Plan
variable {text header : Text} {lines : List Text} (h : PlainPlan text header lines)
include h

theorem PlainPlan.planRows_of_count (hk : (fields header).count "thread_key".toList = 1)
    (hc : (fields header).count "target_cpu".toList = 1) :
    planRows text = some (goodRows header lines) := by
  have hcols := headerCols_of_count (h.plain header List.mem_cons_self) hk hc
  have hlen : ∀ l ∈ text.splitOn '\n', l.length < 4096 := fun l hl =>
    (h.plain l (h.split ▸ hl)).short
  rw [planRows_splitOn h.split hlen, hcols]
  simp only [goodRows]
  congr 1
  refine List.filterMap_congr fun l hl => ?_
  exact (h.plain l (List.mem_cons_of_mem _ hl)).goodRow (headerCols_ne hcols) (h.range l hl)

theorem PlainPlan.planRows_of_notMem
    (hmissing : "thread_key".toList ∉ fields header ∨ "target_cpu".toList ∉ fields header) :
    planRows text = none := by
  have hlen : ∀ l ∈ text.splitOn '\n', l.length < 4096 := fun l hl =>
    (h.plain l (h.split ▸ hl)).short
  have hnone := headerCols_of_notMem (h.plain header List.mem_cons_self) hmissing
  rw [planRows_splitOn h.split hlen]
  split
  · exact absurd ‹_› (hnone _ _)
  · rfl

/-- **Loading is a last-write-wins fold** over the good rows whose update succeeds. Without one of
the columns, or in an empty file, it fails and leaves everything as it was. -/
theorem loadPlanCsv_lastWriteWins (ok : ℕ → Bool) (s : Kernel)
    (hs : s.stats.configuredTasks < 2 ^ 32) :
    ((fields header).count "thread_key".toList = 1 → (fields header).count "target_cpu".toList = 1 →
      loadPlanCsv (patternCalls ok) (.ok text) s =
        (s.after ok (goodRows header lines),
          ((taken ok s.updates (goodRows header lines)).length : ℤ))) ∧
    ("thread_key".toList ∉ fields header ∨ "target_cpu".toList ∉ fields header →
      loadPlanCsv (patternCalls ok) (.ok text) s = (s, -(EINVAL : ℤ))) ∧
    loadPlanCsv (patternCalls ok) (.ok []) s = (s, -(EINVAL : ℤ)) := by
  refine ⟨fun hk hc => ?_, fun hmissing => ?_, rfl⟩
  · rw [loadPlanCsv_eq, h.planRows_of_count hk hc]
    simp only [installAll_pattern ok _ s 0 hs, Nat.zero_add]
  · rw [loadPlanCsv_eq, h.planRows_of_notMem hmissing]

end Plan

/-- Empty maps. -/
def idle : Kernel := ⟨fun _ => none, ⟨0, 0, 0⟩, 0⟩

def sampleHeader : Text := "thread_key,target_cpu".toList

/-- TID 21 twice with a blank line between, TID 22, and no newline at the end. -/
def sampleLines : List Text :=
  ["cpu:pid=21:w,1".toList, [], "cpu:pid=21:w,4".toList, "cpu:pid=22:w,2".toList]

theorem loadPlanCsv_lastWriteWins_sample :
    loadPlanCsv (patternCalls fun i => i ≠ 1)
        (.ok (['\n'].intercalate (sampleHeader :: sampleLines))) idle =
      (idle.after (fun i => i ≠ 1) (goodRows sampleHeader sampleLines),
        ((taken (fun i => i ≠ 1) 0 (goodRows sampleHeader sampleLines)).length : ℤ)) := by
  have hplan : PlainPlan (['\n'].intercalate (sampleHeader :: sampleLines)) sampleHeader
      sampleLines := ⟨by decide +kernel, by decide +kernel, by decide +kernel⟩
  exact (loadPlanCsv_lastWriteWins hplan (fun i => i ≠ 1) idle (by decide)).1 (by decide +kernel)
    (by decide +kernel)

/-! ### What is not read -/

theorem fields_csvLine {fs : List Text} (hne : fs ≠ []) (h : ∀ f ∈ fs, ',' ∉ f) :
    fields (csvLine fs) = fs := List.splitOn_intercalate ',' h hne

/-- A name that fills the buffer by itself. -/
def longName : Text := List.replicate 4095 'x'

theorem plainLine_longName : PlainLine longName := by
  have hx : ∀ c ∈ longName, c = 'x' := fun c hc => List.eq_of_mem_replicate hc
  have hcomma : ',' ∉ longName := fun h => absurd (hx _ h) (by decide)
  refine ⟨by rw [longName, List.length_replicate]; decide, fun h => absurd (hx _ h) (by decide),
    fun h => absurd (hx _ h) (by decide), Or.inr ?_⟩
  rw [fields, List.splitOn_eq_singleton hcomma, List.mem_singleton]
  exact fun h => absurd (congrArg List.length h) (by rw [longName, List.length_replicate]; decide)

/-- A plan whose first line names no columns. -/
theorem planRows_of_headerCols {text header : Text} {lines : List Text}
    (hread : fgetsLines 4096 text = header :: lines)
    (hnone : ∀ k c, headerCols header ≠ (some k, some c)) : planRows text = none := by
  unfold planRows
  rw [hread]
  rcases hcols : headerCols header with ⟨_ | k, _ | c⟩
  · simp only [hcols]
  · simp only [hcols]
  · simp only [hcols]
  · exact absurd hcols (hnone k c)

/-- No header is longer than the buffer. -/
theorem planRows_longName (rest : Text) : planRows (longName ++ rest) = none := by
  have h := plainLine_longName
  have hcomma : ',' ∉ longName := fun hc => absurd (List.eq_of_mem_replicate hc) (by decide)
  have hfields : fields longName = [longName] := List.splitOn_eq_singleton hcomma
  have hname : ∀ name : Text, name.length < 4095 → name ∉ fields longName := fun name hlen hm => by
    rw [hfields, List.mem_singleton] at hm
    rw [hm, longName, List.length_replicate] at hlen
    omega
  have hne : longName ≠ [] := fun he => absurd (congrArg List.length he)
    (by rw [longName, List.length_replicate]; decide)
  have hfull : ([] : Text).length + longName.length + 1 = 4096 := by
    rw [longName, List.length_replicate, List.length_nil]
  have hread := fgetsLoop_full rest h.noNewline hne hfull
  rw [List.reverse_nil, List.nil_append] at hread
  have hnone := headerCols_of_notMem h (Or.inl (hname "thread_key".toList (by decide)))
  exact planRows_of_headerCols hread hnone

/-- A header with a name of 4096 characters in front of the two columns. -/
def longHeader : Text :=
  csvLine [longName ++ "x".toList, "thread_key".toList, "target_cpu".toList]

theorem fields_longHeader : fields longHeader =
    [longName ++ "x".toList, "thread_key".toList, "target_cpu".toList] := by
  refine fields_csvLine (by simp) fun f hf => ?_
  simp only [List.mem_cons, List.not_mem_nil, or_false] at hf
  rcases hf with rfl | rfl | rfl
  · intro h
    rcases List.mem_append.mp h with h | h
    · exact absurd (List.eq_of_mem_replicate h) (by decide)
    · exact absurd h (by decide)
  · decide
  · decide

theorem goodRows_longHeader : goodRows longHeader ["x,cpu:pid=21:w,1".toList] = [(21, 1)] := by
  have hne : ∀ name : Text, name.length < 4095 → longName ++ "x".toList ≠ name := by
    rintro name hlen rfl
    rw [List.length_append, longName, List.length_replicate] at hlen
    omega
  have hk : column "thread_key".toList longHeader = 1 := by
    rw [column, fields_longHeader, List.idxOf_cons_ne _ (hne _ (by decide)), List.idxOf_cons_self]
  have hc : column "target_cpu".toList longHeader = 2 := by
    rw [column, fields_longHeader, List.idxOf_cons_ne _ (hne _ (by decide))]
    rfl
  rw [goodRows, hk, hc]
  decide +kernel

/-- A counter at its maximum. -/
def fullCounter : Kernel := ⟨fun _ => none, ⟨2 ^ 32 - 1, 0, 0⟩, 0⟩

/-- Rows that the text of a plan has and the loader does not take: those below a header that does
not fit the buffer, those whose TID is not behind the first `pid=`, and those behind a NUL. And the
counter of the rows that are taken wraps around. -/
theorem not_lastWriteWins :
    (fields longHeader = [longName ++ "x".toList, "thread_key".toList, "target_cpu".toList] ∧
      PlainLine "x,cpu:pid=21:w,1".toList ∧
      goodRows longHeader ["x,cpu:pid=21:w,1".toList] = [(21, 1)] ∧
      loadPlanCsv (patternCalls fun _ => true)
          (.ok (['\n'].intercalate [longHeader, "x,cpu:pid=21:w,1".toList])) idle =
        (idle, -(EINVAL : ℤ))) ∧
    (PlainLine "thread_key,target_cpu".toList ∧ PlainLine "pid=x pid=21,1".toList ∧
      fields "pid=x pid=21,1".toList =
        ["pid=x ".toList ++ "pid=".toList ++ "21".toList, "1".toList] ∧
      (loadPlanCsv (patternCalls fun _ => true)
          (.ok "thread_key,target_cpu\npid=x pid=21,1\n".toList) idle).2 = 0) ∧
    (PlainLine "note,thread_key,target_cpu".toList ∧
      [] ∉ fields "a\x00b,cpu:pid=21:w,1".toList ∧
      goodRows "note,thread_key,target_cpu".toList ["a\x00b,cpu:pid=21:w,1".toList] = [(21, 1)] ∧
      (loadPlanCsv (patternCalls fun _ => true)
          (.ok "note,thread_key,target_cpu\na\x00b,cpu:pid=21:w,1\n".toList) idle).2 = 0) ∧
    ∃ s', loadPlanCsv (patternCalls fun _ => true)
        (.ok "thread_key,target_cpu\ncpu:pid=21:w,1\n".toList) fullCounter = (s', 1) ∧
      s'.stats.configuredTasks = 0 := by
  refine ⟨⟨fields_longHeader, by decide +kernel, goodRows_longHeader, ?_⟩,
    ⟨by decide +kernel, by decide +kernel, by decide +kernel, by decide +kernel⟩,
    ⟨by decide +kernel, by decide +kernel, by decide +kernel, by decide +kernel⟩,
    _, Prod.ext rfl (by decide +kernel), by decide +kernel⟩
  have hpre : longName <+: ['\n'].intercalate [longHeader, "x,cpu:pid=21:w,1".toList] := by
    rw [List.intercalate_cons_cons, longHeader, csvLine, List.intercalate_cons_cons]
    simp only [List.append_assoc]
    exact List.prefix_append _ _
  obtain ⟨rest, hrest⟩ := hpre
  rw [loadPlanCsv_eq, ← hrest, planRows_longName]

end Magm.Scx.LastWrite
