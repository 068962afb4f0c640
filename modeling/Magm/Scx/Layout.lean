import Magm.Scx.Loader

/-! # Plans of any layout

The loader finds its columns by the header, "so small CSV layout changes do not require recompiling
the scheduler". But `strtok_r` drops empty fields, in the header and in every row, so a column is
found by its place among the fields that are not empty. The loader reads the columns `thread_key`
and `target_cpu` exactly when this place leads to the same TID and CPU (`Aligned`,
`readsColumns_iff`); two layouts of one plan for which it does are loaded alike. -/

namespace Magm.Scx.Layout

open Magm.Lib.Chars Magm.Lib.Stdio Magm.Lib.BoundedMap Magm.Scx.Loader

/-! ### Tables -/

def csvLine (fields : List Text) : Text := [','].intercalate fields

theorem mem_csvLine {x : Char} : ∀ {fields : List Text} {f : Text}, f ∈ fields → x ∈ f →
    x ∈ csvLine fields
  | [f'], f, hf, hx => by
    rw [List.mem_singleton.mp hf] at hx
    rwa [csvLine, List.intercalate_singleton]
  | f' :: f'' :: fs, f, hf, hx => by
    rw [csvLine, List.intercalate_cons_cons, List.mem_append]
    rcases List.mem_cons.mp hf with rfl | hf
    · exact Or.inl (List.mem_append_left _ hx)
    · exact Or.inr (mem_csvLine hf hx)

/-- A plan with any columns, whose fields need no quotes. -/
structure PlanTable where
  header : List Text
  rows : List (List Text)
  width : ∀ r ∈ rows, r.length = header.length
  plain : ∀ fields ∈ header :: rows, ∀ f ∈ fields, ',' ∉ f ∧ '"' ∉ f ∧ '\n' ∉ f
  short : ∀ fields ∈ header :: rows, (csvLine fields).length < 4096
  threadKey : header.count "thread_key".toList = 1
  targetCpu : header.count "target_cpu".toList = 1

namespace PlanTable

variable (t : PlanTable)

def text : Text := (t.header :: t.rows).flatMap fun fields => csvLine fields ++ ['\n']

def threadKeyCol : ℕ := t.header.idxOf "thread_key".toList
def targetCpuCol : ℕ := t.header.idxOf "target_cpu".toList

/-- The TID of the field `thread_key`, `-1` when it spells none. -/
def tid (r : List Text) : ℤ := (r[t.threadKeyCol]?.bind tidOf).getD (-1)

/-- The CPU of the field `target_cpu`, `-1` when it spells none. -/
def cpu (r : List Text) : ℤ := (r[t.targetCpuCol]?.bind parseInt).getD (-1)

end PlanTable

/-- **The loader reads the columns of the header**: of every row, the TID of its `thread_key` and
the CPU of its `target_cpu`. -/
def ReadsColumns (t : PlanTable) : Prop :=
  ∃ k c, headerCols (csvLine t.header) = (some k, some c) ∧
    ∀ r ∈ t.rows, readRow k c (csvLine r) = (t.tid r, t.cpu r)

/-! ### What `strtok_r` makes of a line -/

/-- The fields of a line up to a NUL, where a string ends. -/
def untilNul : List Text → List Text
  | [] => []
  | f :: fs => if '\x00' ∈ f then [cString f] else f :: untilNul fs

/-- The fields of a line that are not empty. -/
def seen (fields : List Text) : List Text := (untilNul fields).filter fun f => f ≠ []

theorem mem_untilNul : ∀ {fields : List Text} {f : Text}, f ∈ untilNul fields →
    ∃ f' ∈ fields, f <+: f'
  | f' :: fs, f, h => by
    unfold untilNul at h
    split_ifs at h with hnul
    · rw [List.mem_singleton.mp h]
      exact ⟨f', List.mem_cons_self, List.takeWhile_prefix _⟩
    · rcases List.mem_cons.mp h with rfl | h
      · exact ⟨f, List.mem_cons_self, List.prefix_rfl⟩
      · obtain ⟨f'', hf'', hpre⟩ := mem_untilNul h
        exact ⟨f'', List.mem_cons_of_mem _ hf'', hpre⟩

theorem untilNul_eq_self : ∀ {fields : List Text}, (∀ f ∈ fields, '\x00' ∉ f) →
    untilNul fields = fields
  | [], _ => rfl
  | f :: fs, h => by
    rw [untilNul, if_neg (h f List.mem_cons_self),
      untilNul_eq_self fun f hf => h f (List.mem_cons_of_mem _ hf)]

theorem cString_csvLine : ∀ fields : List Text, cString (csvLine fields) = csvLine (untilNul fields)
  | [] => rfl
  | [f] => by
    unfold csvLine untilNul
    split_ifs with h
    · rw [List.intercalate_singleton, List.intercalate_singleton]
    · rw [untilNul, List.intercalate_singleton, cString_eq_self h]
  | f :: f' :: fs => by
    have ih := cString_csvLine (f' :: fs)
    unfold csvLine at ih ⊢
    rw [List.intercalate_cons_cons, List.append_assoc, cString_append, untilNul]
    split_ifs with h
    · rw [List.intercalate_singleton]
    · have hcomma : cString ([','] ++ [','].intercalate (f' :: fs)) =
          [','] ++ cString ([','].intercalate (f' :: fs)) := by
        rw [cString_append, if_neg (by decide)]
      obtain ⟨g, gs, hg⟩ : ∃ g gs, untilNul (f' :: fs) = g :: gs := by
        unfold untilNul
        split_ifs
        · exact ⟨_, _, rfl⟩
        · exact ⟨_, _, rfl⟩
      rw [hcomma, ih, hg, List.intercalate_cons_cons, List.append_assoc]

theorem flatMap_tokens : ∀ {fields : List Text}, (∀ f ∈ fields, ∀ c ∈ f, c ∉ delim) →
    fields.flatMap (tokens fun c => c ∈ delim) = fields.filter fun f => f ≠ []
  | [], _ => rfl
  | f :: fs, h => by
    have ih := flatMap_tokens fun f' hf' => h f' (List.mem_cons_of_mem _ hf')
    rw [List.flatMap_cons, ih]
    by_cases hf : f = []
    · rw [hf, tokens_nil, List.filter_cons_of_neg (by simp)]
      rfl
    · have hplain : ∀ c ∈ f, decide (c ∈ delim) = false := fun c hc =>
        decide_eq_false (h f List.mem_cons_self c hc)
      rw [tokens_of_forall hplain hf, List.filter_cons_of_pos (by simpa using hf)]
      rfl

/-- **The tokens of a line** are its fields that are not empty. -/
theorem strtokR_csvLine {fields : List Text} (h : ∀ f ∈ fields, ',' ∉ f ∧ '\n' ∉ f) :
    strtokR delim (csvLine fields) = seen fields := by
  have hplain : ∀ f ∈ untilNul fields, ∀ c ∈ f, c ∉ delim := fun f hf c hc hd => by
    obtain ⟨f', hf', hpre⟩ := mem_untilNul hf
    simp only [delim, List.mem_cons, List.not_mem_nil, or_false] at hd
    rcases hd with rfl | rfl
    · exact (h f' hf').1 (hpre.subset hc)
    · exact (h f' hf').2 (hpre.subset hc)
  rw [strtokR, cString_csvLine, csvLine, tokens_intercalate (by decide), flatMap_tokens hplain]
  rfl

/-! ### The columns of the header -/

/-- The last place of a name. -/
def lastPlace (name : Text) : List Text → Option ℕ
  | [] => none
  | n :: names => ((lastPlace name names).map (· + 1)).or (if n = name then some 0 else none)

theorem foldl_headerField_eq : ∀ (names : List Text) (i : ℕ) (cols : Option ℕ × Option ℕ),
    (names.zipIdx i).foldl headerField cols =
      (((lastPlace "thread_key".toList names).map (· + i)).or cols.1,
        ((lastPlace "target_cpu".toList names).map (· + i)).or cols.2)
  | [], _, _ => rfl
  | n :: names, i, cols => by
    have hshift : ∀ o : Option ℕ, o.map (· + (i + 1)) = (o.map (· + 1)).map (· + i) := fun o => by
      rw [Option.map_map]
      congr 1
      funext j
      simp only [Function.comp_apply]
      omega
    rw [List.zipIdx_cons, List.foldl_cons, foldl_headerField_eq names (i + 1), hshift, hshift,
      lastPlace, lastPlace, Option.map_or, Option.map_or, Option.or_assoc, Option.or_assoc]
    unfold headerField
    by_cases hk : n = "thread_key".toList
    · have hc : n ≠ "target_cpu".toList := by rw [hk]; decide
      simp only [if_pos hk, if_neg hc, Option.map_some, Option.map_none, Nat.zero_add,
        Option.some_or, Option.none_or]
    · by_cases hc : n = "target_cpu".toList
      · simp only [if_neg hk, if_pos hc, Option.map_some, Option.map_none, Nat.zero_add,
          Option.some_or, Option.none_or]
      · simp only [if_neg hk, if_neg hc, Option.map_none, Option.none_or]

theorem headerCols_csvLine {names : List Text} (h : ∀ f ∈ names, ',' ∉ f ∧ '\n' ∉ f) :
    headerCols (csvLine names) = (lastPlace "thread_key".toList (seen names),
      lastPlace "target_cpu".toList (seen names)) := by
  unfold headerCols
  rw [strtokR_csvLine h, foldl_headerField_eq]
  simp

/-! ### When the columns are read -/

/-- The condition: both names are seen in the header, and in every row the fields seen at their
places spell what the fields `thread_key` and `target_cpu` spell. -/
def Aligned (t : PlanTable) : Prop :=
  ∃ k ∈ lastPlace "thread_key".toList (seen t.header),
    ∃ c ∈ lastPlace "target_cpu".toList (seen t.header), ∀ r ∈ t.rows,
      ((seen r)[k]?.bind tidOf).getD (-1) = t.tid r ∧
        ((seen r)[c]?.bind parseInt).getD (-1) = t.cpu r

theorem readsColumns_iff_aligned (t : PlanTable) : ReadsColumns t ↔ Aligned t := by
  have hheader := fun f hf => (t.plain t.header List.mem_cons_self f hf)
  have hcols : headerCols (csvLine t.header) = (lastPlace "thread_key".toList (seen t.header),
      lastPlace "target_cpu".toList (seen t.header)) :=
    headerCols_csvLine fun f hf => ⟨(hheader f hf).1, (hheader f hf).2.2⟩
  have hrow : ∀ k c, k ≠ c → ∀ r ∈ t.rows, readRow k c (csvLine r) =
      (((seen r)[k]?.bind tidOf).getD (-1), ((seen r)[c]?.bind parseInt).getD (-1)) :=
    fun k c hkc r hr => by
      have hplain := t.plain r (List.mem_cons_of_mem _ hr)
      rw [readRow_eq hkc, strtokR_csvLine fun f hf => ⟨(hplain f hf).1, (hplain f hf).2.2⟩]
  constructor
  · rintro ⟨k, c, hkc, hread⟩
    have hne := headerCols_ne hkc
    rw [hcols, Prod.mk.injEq] at hkc
    refine ⟨k, hkc.1, c, hkc.2, fun r hr => ?_⟩
    have h := hread r hr
    rw [hrow k c hne r hr, Prod.mk.injEq] at h
    exact h
  · rintro ⟨k, hk, c, hc, hread⟩
    have hkc : headerCols (csvLine t.header) = (some k, some c) := by
      rw [hcols, Option.mem_def.mp hk, Option.mem_def.mp hc]
    refine ⟨k, c, hkc, fun r hr => ?_⟩
    rw [hrow k c (headerCols_ne hkc) r hr, (hread r hr).1, (hread r hr).2]

/-! ### Empty fields in front of a column -/

theorem lastPlace_eq_none {name : Text} : ∀ {names : List Text}, name ∉ names →
    lastPlace name names = none
  | [], _ => rfl
  | n :: names, h => by
    rw [List.mem_cons, not_or] at h
    rw [lastPlace, lastPlace_eq_none h.2, if_neg (Ne.symm h.1)]
    rfl

theorem lastPlace_eq_some {name : Text} : ∀ {names : List Text} {i : ℕ}, names.count name = 1 →
    names[i]? = some name → lastPlace name names = some i
  | n :: names, 0, hc, h => by
    obtain rfl : n = name := by simpa using h
    have hnot : n ∉ names := by
      rw [List.count_cons_self] at hc
      exact List.count_eq_zero.mp (by omega)
    rw [lastPlace, lastPlace_eq_none hnot, if_pos rfl]
    rfl
  | n :: names, i + 1, hc, h => by
    rw [List.getElem?_cons_succ] at h
    have hpos : 0 < names.count name := List.count_pos_iff.mpr (List.mem_of_getElem? h)
    have hne : n ≠ name := by
      rintro rfl
      rw [List.count_cons_self] at hc
      omega
    rw [List.count_cons_of_ne hne] at hc
    rw [lastPlace, lastPlace_eq_some hc h]
    rfl

theorem getElem?_filter {α : Type*} {q : α → Bool} {a : α} : ∀ {l : List α} {i : ℕ},
    l[i]? = some a → q a = true → (l.filter q)[(l.take i).countP q]? = some a
  | b :: l, 0, h, hq => by
    obtain rfl : b = a := by simpa using h
    rw [List.filter_cons_of_pos hq]
    rfl
  | b :: l, i + 1, h, hq => by
    have ih := getElem?_filter (l := l) (i := i) (by simpa using h) hq
    rw [List.take_succ_cons]
    by_cases hb : q b = true
    · rw [List.filter_cons_of_pos hb, List.countP_cons_of_pos hb, List.getElem?_cons_succ, ih]
    · rw [List.filter_cons_of_neg hb, List.countP_cons_of_neg hb, ih]

/-- The fields in front of place `i` that are not empty. -/
def filledBefore (fields : List Text) (i : ℕ) : ℕ := (fields.take i).countP fun f => f ≠ []

section Seen
variable {fields : List Text} (hnul : ∀ f ∈ fields, '\x00' ∉ f)
include hnul

/-- A field that is not empty is seen behind those in front of it that are not. -/
theorem getElem?_seen {i : ℕ} {f : Text} (h : fields[i]? = some f) (hne : f ≠ []) :
    (seen fields)[filledBefore fields i]? = some f := by
  rw [seen, untilNul_eq_self hnul]
  exact getElem?_filter h (by simpa using hne)

theorem lastPlace_seen {name : Text} (hne : name ≠ []) (hc : fields.count name = 1) :
    lastPlace name (seen fields) = some (filledBefore fields (fields.idxOf name)) := by
  have hmem : name ∈ fields := List.count_pos_iff.mp (by rw [hc]; decide)
  refine lastPlace_eq_some ?_ (getElem?_seen hnul (List.getElem?_idxOf hmem) hne)
  rw [seen, untilNul_eq_self hnul, List.count_filter (by simpa using hne), hc]

end Seen

/-- **As many filled fields in front of both columns in every row as in the header** are enough. -/
theorem aligned_of_filledBefore {t : PlanTable}
    (hnul : ∀ fields ∈ t.header :: t.rows, ∀ f ∈ fields, '\x00' ∉ f)
    (hfilled : ∀ r ∈ t.rows, r[t.threadKeyCol]? ≠ some [] ∧ r[t.targetCpuCol]? ≠ some [])
    (h : ∀ r ∈ t.rows,
      filledBefore r t.threadKeyCol = filledBefore t.header t.threadKeyCol ∧
        filledBefore r t.targetCpuCol = filledBefore t.header t.targetCpuCol) : Aligned t := by
  have hplace := fun name =>
    @lastPlace_seen t.header (hnul t.header List.mem_cons_self) name
  have hfield : ∀ r ∈ t.rows, ∀ name, t.header.count name = 1 →
      r[t.header.idxOf name]? ≠ some [] →
        (seen r)[filledBefore r (t.header.idxOf name)]? = r[t.header.idxOf name]? :=
    fun r hr name hc hne => by
      have hlt : t.header.idxOf name < r.length := by
        rw [t.width r hr]
        exact List.idxOf_lt_length_of_mem (List.count_pos_iff.mp (by rw [hc]; decide))
      rw [List.getElem?_eq_getElem hlt] at hne ⊢
      exact getElem?_seen (hnul r (List.mem_cons_of_mem _ hr)) (List.getElem?_eq_getElem hlt)
        fun he => hne (by rw [he])
  refine ⟨_, hplace _ (by decide) t.threadKey, _, hplace _ (by decide) t.targetCpu,
    fun r hr => ⟨?_, ?_⟩⟩
  · have hk := hfield r hr _ t.threadKey (hfilled r hr).1
    exact congrArg (fun o => (o.bind tidOf).getD (-1)) ((h r hr).1 ▸ hk)
  · have hc := hfield r hr _ t.targetCpu (hfilled r hr).2
    exact congrArg (fun o => (o.bind parseInt).getD (-1)) ((h r hr).2 ▸ hc)

/-! ### What a table loads -/

/-- What the loader should take from a row. -/
def PlanTable.good (t : PlanTable) (r : List Text) : Option (ℕ × ℕ) :=
  if 0 < t.tid r ∧ 0 ≤ t.cpu r then some (toUnsigned (t.tid r), toUnsigned (t.cpu r)) else none

theorem flatMap_lines : ∀ lines : List Text,
    (lines.flatMap fun l => l ++ ['\n']) = ['\n'].intercalate (lines ++ [[]])
  | [] => rfl
  | l :: lines => by
    have ih := flatMap_lines lines
    obtain ⟨l', ls, hls⟩ : ∃ l' ls, lines ++ [[]] = l' :: ls :=
      List.exists_cons_of_ne_nil (by simp)
    rw [List.flatMap_cons, ih, List.cons_append, hls, List.intercalate_cons_cons]

theorem splitOn_text (t : PlanTable) : t.text.splitOn '\n' =
    csvLine t.header :: (t.rows.map csvLine ++ [[]]) := by
  have hmap : t.text = ((t.header :: t.rows).map csvLine).flatMap fun l => l ++ ['\n'] := by
    rw [List.flatMap_map]
    rfl
  have hlines : ∀ l ∈ (t.header :: t.rows).map csvLine ++ [[]], '\n' ∉ l := by
    intro l hl
    rcases List.mem_append.mp hl with hl | hl
    · obtain ⟨fields, hfields, rfl⟩ := List.mem_map.mp hl
      exact notMem_intercalate (by decide) fun f hf => (t.plain fields hfields f hf).2.2
    · rw [List.mem_singleton.mp hl]
      exact List.not_mem_nil
  rw [hmap, flatMap_lines, List.splitOn_intercalate '\n' hlines (by simp)]
  rfl

/-- **A plan whose columns are read is loaded** row by row as the table says. -/
theorem planRows_text {t : PlanTable} (h : ReadsColumns t) :
    planRows t.text = some (t.rows.filterMap t.good) := by
  obtain ⟨k, c, hcols, hread⟩ := h
  have hlen : ∀ l ∈ t.text.splitOn '\n', l.length < 4096 := fun l hl => by
    rw [splitOn_text, ← List.cons_append, ← List.map_cons, List.mem_append] at hl
    rcases hl with hl | hl
    · obtain ⟨fields, hfields, rfl⟩ := List.mem_map.mp hl
      exact t.short fields hfields
    · rw [List.mem_singleton.mp hl]
      decide
  have hgood : ∀ r ∈ t.rows, (goodRow k c ∘ csvLine) r = t.good r := fun r hr => by
    rw [Function.comp_apply, goodRow, hread r hr]
    rfl
  rw [planRows_splitOn (splitOn_text t) hlen, hcols]
  simp only [List.filterMap_append, List.filterMap_map, List.filterMap_cons, List.filterMap_nil,
    goodRow_nil, List.append_nil, List.filterMap_congr hgood]

/-! ### Two layouts of one plan -/

/-- `t'` has the columns of `t` in another order, the places `p` of `t`. -/
structure Permutes (p : List ℕ) (t t' : PlanTable) : Prop where
  perm : p.Perm (List.range t.header.length)
  header : t'.header = p.map fun i => t.header.getD i []
  rows : t'.rows = t.rows.map fun r => p.map fun i => r.getD i []

theorem eq_idxOf_of_count {a : Text} : ∀ {l : List Text} {i : ℕ}, l.count a = 1 →
    l[i]? = some a → i = l.idxOf a
  | b :: l, 0, _, h => by
    obtain rfl : b = a := by simpa using h
    rw [List.idxOf_cons_self]
  | b :: l, i + 1, hc, h => by
    rw [List.getElem?_cons_succ] at h
    have hpos : 0 < l.count a := List.count_pos_iff.mpr (List.mem_of_getElem? h)
    have hne : b ≠ a := by
      rintro rfl
      rw [List.count_cons_self] at hc
      omega
    rw [List.count_cons_of_ne hne] at hc
    rw [List.idxOf_cons_ne l hne, eq_idxOf_of_count hc h]

section Permutes
variable {p : List ℕ} {t t' : PlanTable} (h : Permutes p t t')
include h

/-- A column that occurs once is found again. -/
theorem Permutes.getElem?_idxOf {name : Text} (hname : t.header.count name = 1)
    (hname' : t'.header.count name = 1) {r : List Text} (hr : r.length = t.header.length) :
    (p.map fun i => r.getD i [])[t'.header.idxOf name]? = r[t.header.idxOf name]? := by
  have hmem : name ∈ t'.header := List.count_pos_iff.mp (by rw [hname']; decide)
  have hlen : t'.header.length = p.length := by rw [h.header, List.length_map]
  have hjp : t'.header.idxOf name < p.length := hlen ▸ List.idxOf_lt_length_of_mem hmem
  have hi : p[t'.header.idxOf name] < t.header.length :=
    List.mem_range.mp (h.perm.subset (List.getElem_mem hjp))
  have hget : t'.header[t'.header.idxOf name]? = some name := List.getElem?_idxOf hmem
  have hplace : p[t'.header.idxOf name] = t.header.idxOf name := by
    refine eq_idxOf_of_count hname ?_
    have hmap : (p.map fun i => t.header.getD i [])[t'.header.idxOf name]? = some name := by
      rw [← h.header]
      exact hget
    rw [List.getElem?_map, List.getElem?_eq_getElem hjp, Option.map_some,
      List.getD_eq_getElem?_getD, List.getElem?_eq_getElem hi, Option.getD_some] at hmap
    rw [List.getElem?_eq_getElem hi, hmap]
  rw [List.getElem?_map, List.getElem?_eq_getElem hjp, Option.map_some, hplace,
    List.getD_eq_getElem?_getD]
  have hlt : t.header.idxOf name < r.length := by rw [hr, ← hplace]; exact hi
  rw [List.getElem?_eq_getElem hlt, Option.getD_some]

/-- The two layouts say the same of every thread. -/
theorem Permutes.filterMap_good : t'.rows.filterMap t'.good = t.rows.filterMap t.good := by
  rw [h.rows, List.filterMap_map]
  refine List.filterMap_congr fun r hr => ?_
  have htid : t'.tid (p.map fun i => r.getD i []) = t.tid r := by
    unfold PlanTable.tid PlanTable.threadKeyCol
    rw [h.getElem?_idxOf t.threadKey t'.threadKey (t.width r hr)]
  have hcpu : t'.cpu (p.map fun i => r.getD i []) = t.cpu r := by
    unfold PlanTable.cpu PlanTable.targetCpuCol
    rw [h.getElem?_idxOf t.targetCpu t'.targetCpu (t.width r hr)]
  rw [Function.comp_apply, PlanTable.good, htid, hcpu]
  rfl

end Permutes

/-- Thread 8 alone on its core, placed on CPU 3: the score in front of the CPU is empty. -/
def scoreFirst : PlanTable where
  header := ["thread_key".toList, "score".toList, "target_cpu".toList, "n_run".toList]
  rows := [["cpu:pid=8:w".toList, [], "3".toList, "1".toList]]
  width := by decide
  plain := by decide
  short := by decide
  threadKey := by decide
  targetCpu := by decide

/-- The same plan with the score behind the CPU. -/
def scoreBehind : PlanTable where
  header := ["thread_key".toList, "target_cpu".toList, "score".toList, "n_run".toList]
  rows := [["cpu:pid=8:w".toList, "3".toList, [], "1".toList]]
  width := by decide
  plain := by decide
  short := by decide
  threadKey := by decide
  targetCpu := by decide

end Magm.Scx.Layout
