import Magm.Lib.Chars
import Mathlib.Data.List.Forall2

/-! # Comma-separated files

The writer of pandas (`writeCsv`) wraps a field in quotes when it contains a comma, a quote or
a line break, and doubles the quotes inside. The reader (`tokenize`) is the state machine of its
tokenizer with the default settings: a quote is special at the start of a field only, blank lines
are skipped, and a carriage return ends a line like a newline. -/

namespace Magm.Lib.Csv

open Magm.Lib.Chars

/-! ### The writer -/

/-- The characters that have a field quoted. -/
def special : Text := [',', '"', '\n', '\r']

def doubleQuotes (field : Text) : Text := field.flatMap fun c => if c = '"' then ['"', '"'] else [c]

def writeField (field : Text) : Text :=
  if ∃ c ∈ field, c ∈ special then '"' :: (doubleQuotes field ++ ['"']) else field

def writeLine (fields : List Text) : Text := [','].intercalate (fields.map writeField)

def writeCsv (lines : List (List Text)) : Text :=
  lines.flatMap fun fields => writeLine fields ++ ['\n']

theorem writeField_of_plain {field : Text} (h : ∀ c ∈ field, c ∉ special) :
    writeField field = field := by
  unfold writeField
  rw [if_neg]
  rintro ⟨c, hc, hs⟩
  exact h c hc hs

theorem mem_doubleQuotes {field : Text} {c : Char} : c ∈ doubleQuotes field ↔ c ∈ field := by
  simp only [doubleQuotes, List.mem_flatMap]
  constructor
  · rintro ⟨x, hx, h⟩
    split_ifs at h with hq
    · subst hq
      simp only [List.mem_cons, List.not_mem_nil, or_false, or_self] at h
      exact h ▸ hx
    · simp only [List.mem_singleton] at h
      exact h ▸ hx
  · intro h
    refine ⟨c, h, ?_⟩
    split_ifs with hq
    · rw [hq]; simp
    · simp

theorem doubleQuotes_eq_self {field : Text} (h : '"' ∉ field) : doubleQuotes field = field := by
  have hf : ∀ c ∈ field, (if c = '"' then ['"', '"'] else [c]) = [c] := by
    intro c hc
    rw [if_neg]
    rintro rfl
    exact h hc
  rw [doubleQuotes, List.flatMap_congr hf, List.flatMap_singleton']

theorem doubleQuotes_append (a b : Text) :
    doubleQuotes (a ++ b) = doubleQuotes a ++ doubleQuotes b := List.flatMap_append

theorem length_doubleQuotes_le : ∀ field : Text, (doubleQuotes field).length ≤ 2 * field.length
  | [] => by simp [doubleQuotes]
  | c :: field => by
    have ih := length_doubleQuotes_le field
    unfold doubleQuotes at ih ⊢
    rw [List.flatMap_cons, List.length_append, List.length_cons]
    split_ifs <;> simp only [List.length_cons, List.length_nil] <;> omega

theorem length_writeField_le (field : Text) : (writeField field).length ≤ 2 * field.length + 2 := by
  have := length_doubleQuotes_le field
  unfold writeField
  split_ifs
  · simp only [List.length_cons, List.length_append, List.length_nil]; omega
  · omega

theorem mem_writeField {field : Text} {c : Char} (h : c ∈ writeField field) :
    c ∈ field ∨ c = '"' := by
  unfold writeField at h
  split_ifs at h
  · simp only [List.mem_cons, List.mem_append, List.not_mem_nil, or_false, mem_doubleQuotes] at h
    rcases h with h | h | h
    · exact Or.inr h
    · exact Or.inl h
    · exact Or.inr h
  · exact Or.inl h

theorem writeField_ne_nil {field : Text} (h : field ≠ []) : writeField field ≠ [] := by
  unfold writeField
  split_ifs
  · simp
  · exact h

/-- The length of a line, from the lengths of its fields. -/
theorem length_writeLine_le : ∀ fields : List Text,
    (writeLine fields).length ≤ (fields.map fun f => 2 * f.length + 3).sum
  | [] => by simp [writeLine]
  | [f] => by
    have := length_writeField_le f
    simp only [writeLine, List.map_cons, List.map_nil, List.intercalate_singleton, List.sum_cons,
      List.sum_nil]
    omega
  | f :: f' :: fs => by
    have hf := length_writeField_le f
    have ih := length_writeLine_le (f' :: fs)
    simp only [writeLine, List.map_cons, List.intercalate_cons_cons, List.length_append,
      List.length_singleton, List.sum_cons] at ih ⊢
    omega

theorem mem_writeLine {c : Char} (hc : c ≠ ',') (hq : c ≠ '"') : ∀ {fields : List Text},
    c ∈ writeLine fields → ∃ f ∈ fields, c ∈ f
  | [], h => by simp [writeLine] at h
  | [f], h => by
    simp only [writeLine, List.map_cons, List.map_nil, List.intercalate_singleton] at h
    exact ⟨f, by simp, (mem_writeField h).resolve_right hq⟩
  | f :: f' :: fs, h => by
    simp only [writeLine, List.map_cons, List.intercalate_cons_cons, List.mem_append,
      List.mem_singleton] at h
    rcases h with (h | h) | h
    · exact ⟨f, by simp, (mem_writeField h).resolve_right hq⟩
    · exact absurd h hc
    · have hrest : c ∈ writeLine (f' :: fs) := by simpa [writeLine] using h
      obtain ⟨g, hg, hcg⟩ := mem_writeLine hc hq hrest
      exact ⟨g, List.mem_cons_of_mem _ hg, hcg⟩

/-! ### The reader -/

/-- The states of the tokenizer. -/
inductive ReadState
  | startRecord | startField | inField | inQuoted | quoteInQuoted | eatCrnl | eatCrnlNop
  | whitespaceLine
  deriving DecidableEq

/-- What the tokenizer does with a character. -/
inductive Action
  /-- Drops it. -/
  | skip (m : ReadState)
  /-- Drops it, and what has been read of the field. -/
  | clear (m : ReadState)
  /-- Adds it to the field. -/
  | push (m : ReadState)
  /-- Ends the field. -/
  | endField (m : ReadState)
  /-- Ends the field and the line. -/
  | endLine

open ReadState Csv.Action

def actInField (c : Char) : Action :=
  if c = '\n' then endLine
  else if c = '\r' then endField eatCrnl
  else if c = ',' then endField startField
  else push inField

def actStartField (c : Char) : Action := if c = '"' then skip inQuoted else actInField c

def actStartRecord (c : Char) : Action :=
  if c = '\n' then skip startRecord
  else if c = '\r' then skip eatCrnlNop
  else if c = ' ' ∨ c = '\t' then push whitespaceLine
  else actStartField c

/-- The action in a state; `eatCrnl` ends the line before it acts like `startRecord`. -/
def act : ReadState → Char → Action
  | startRecord, c => actStartRecord c
  | startField, c => actStartField c
  | inField, c => actInField c
  | inQuoted, c => if c = '"' then skip quoteInQuoted else push inQuoted
  | quoteInQuoted, c => if c = '"' then push inQuoted else actInField c
  | eatCrnl, c => if c = '\n' then skip startRecord else actStartRecord c
  | eatCrnlNop, c => if c = '\n' then skip startRecord else actStartRecord c
  | whitespaceLine, c =>
    if c = '\n' then clear startRecord
    else if c = '\r' then clear eatCrnlNop
    else if c = ' ' ∨ c = '\t' then push whitespaceLine
    else actInField c

/-- Puts a field in front of the record that is being read. -/
def consField (field : Text) : List (List Text) → List (List Text)
  | [] => [[field]]
  | record :: records => (field :: record) :: records

theorem consField_eq (field : Text) (records : List (List Text)) :
    consField field records = (field :: records.headD []) :: records.tail := by
  rcases records with _ | ⟨r, rs⟩ <;> rfl

/-- Carries an action out; `next` reads on. -/
def perform (next : ReadState → Text → Option (List (List Text))) (cur : Text) (c : Char) :
    Action → Option (List (List Text))
  | skip m => next m cur
  | clear m => next m []
  | push m => next m (cur ++ [c])
  | endField m => (next m []).map (consField cur)
  | endLine => (next startRecord []).map fun records => [cur] :: records

/-- The records of a text, the first of them the rest of the one that is being read; `cur` is what
has been read of its field. The end of the file inside quotes is an error. -/
def tokenize : ReadState → Text → Text → Option (List (List Text))
  | startRecord, _, [] => some []
  | eatCrnlNop, _, [] => some []
  | whitespaceLine, _, [] => some []
  | eatCrnl, _, [] => some [[]]
  | inQuoted, _, [] => none
  | startField, cur, [] => some [[cur]]
  | inField, cur, [] => some [[cur]]
  | quoteInQuoted, cur, [] => some [[cur]]
  | eatCrnl, cur, c :: s =>
    (perform (fun m cur' => tokenize m cur' s) cur c (act eatCrnl c)).map
      fun records => [] :: records
  | m, cur, c :: s => perform (fun m' cur' => tokenize m' cur' s) cur c (act m c)

/-- The missing fields at the end of a short record. -/
def pad (n : ℕ) (record : List Text) : List Text := record ++ List.replicate (n - record.length) []

/-- The header and the rows of a file: short rows are filled with empty fields, a row longer than
the header is an error. -/
def readCsv (s : Text) : Option (List Text × List (List Text)) :=
  match tokenize startRecord [] s with
  | none => none
  | some [] => none
  | some (header :: records) =>
    if ∀ r ∈ records, r.length ≤ header.length then some (header, records.map (pad header.length))
    else none

/-- The field of a row under a column name. -/
def field (header row : List Text) (name : String) : Option Text := row[header.idxOf name.toList]?

/-! ### Fields that are read back -/

/-- The text `t` in a file is read as the field `field`. -/
structure Reads (t field : Text) : Prop where
  comma : ∀ s, tokenize startField [] (t ++ ',' :: s) =
    (tokenize startField [] s).map (consField field)
  newline : ∀ s, tokenize startField [] (t ++ '\n' :: s) =
    (tokenize startRecord [] s).map fun records => [field] :: records

/-- The characters that end a bare field. -/
def separators : Text := [',', '\n', '\r']

theorem mem_special_of_separators {c : Char} (h : c ∈ separators) : c ∈ special := by
  simp only [separators, special, List.mem_cons, List.not_mem_nil, or_false] at h ⊢
  tauto

/-- A field that needs no quotes to be read back. -/
def Bare (field : Text) : Prop := (∀ c ∈ field, c ∉ separators) ∧ field.head? ≠ some '"'

instance (field : Text) : Decidable (Bare field) := by unfold Bare; infer_instance

theorem actInField_of_notMem {c : Char} (h : c ∉ separators) : actInField c = push inField := by
  simp only [separators, List.mem_cons, List.not_mem_nil, or_false, not_or] at h
  unfold actInField
  rw [if_neg h.2.1, if_neg h.2.2, if_neg h.1]

theorem tokenize_inField (s : Text) : ∀ {field : Text} (cur : Text), (∀ c ∈ field, c ∉ separators) →
    tokenize inField cur (field ++ s) = tokenize inField (cur ++ field) s
  | [], cur, _ => by simp
  | c :: field, cur, h => by
    rw [List.cons_append, tokenize]
    · rw [act, actInField_of_notMem (h c (by simp)), perform,
        tokenize_inField s (cur ++ [c]) fun x hx => h x (by simp [hx])]
      simp
    · simp

theorem tokenize_bare {field : Text} (hb : Bare field) (hne : field ≠ []) (s : Text) :
    tokenize startField [] (field ++ s) = tokenize inField field s := by
  obtain ⟨hsep, hquote⟩ := hb
  obtain ⟨c, field, rfl⟩ := List.exists_cons_of_ne_nil hne
  rw [List.cons_append, tokenize]
  · rw [act, actStartField, if_neg fun hc => hquote (by rw [hc]; rfl),
      actInField_of_notMem (hsep c (by simp)), perform,
      tokenize_inField s _ fun x hx => hsep x (by simp [hx])]
    rfl
  · simp

/-- **A bare field is read as it stands.** -/
theorem reads_bare {field : Text} (hb : Bare field) : Reads field field := by
  by_cases hne : field = []
  · subst hne
    exact ⟨fun s => by simp [tokenize, act, actStartField, actInField, perform],
      fun s => by simp [tokenize, act, actStartField, actInField, perform]⟩
  · exact ⟨fun s => by rw [tokenize_bare hb hne]; simp [tokenize, act, actInField, perform],
      fun s => by rw [tokenize_bare hb hne]; simp [tokenize, act, actInField, perform]⟩

theorem tokenize_inQuoted (s : Text) : ∀ (field cur : Text),
    tokenize inQuoted cur (doubleQuotes field ++ s) = tokenize inQuoted (cur ++ field) s
  | [], cur => by simp [doubleQuotes]
  | c :: field, cur => by
    have ih := tokenize_inQuoted s field (cur ++ [c])
    rw [List.append_assoc, List.singleton_append] at ih
    rw [← ih]
    by_cases hc : c = '"'
    · subst hc
      simp [doubleQuotes, tokenize, act, perform]
    · simp [doubleQuotes, tokenize, act, perform, hc]

/-- **A written field is read back.** -/
theorem reads_writeField (field : Text) : Reads (writeField field) field := by
  unfold writeField
  split_ifs with h
  · have hopen : ∀ s, tokenize startField [] ('"' :: (doubleQuotes field ++ ['"']) ++ s) =
        tokenize quoteInQuoted field s := by
      intro s
      rw [List.cons_append, List.append_assoc, List.singleton_append, tokenize]
      · rw [act, actStartField, if_pos rfl, perform, tokenize_inQuoted, tokenize]
        · simp [act, perform]
        · simp
      · simp
    exact ⟨fun s => by rw [hopen]; simp [tokenize, act, actInField, perform],
      fun s => by rw [hopen]; simp [tokenize, act, actInField, perform]⟩
  · refine reads_bare ⟨fun c hc hs => h ⟨c, hc, mem_special_of_separators hs⟩, fun hq => ?_⟩
    exact h ⟨'"', List.mem_of_mem_head? hq, by decide⟩

/-- **A line of fields that are read back.** -/
theorem tokenize_line (s : Text) :
    ∀ {ts fields : List Text}, List.Forall₂ Reads ts fields → ts ≠ [] →
    tokenize startField [] ([','].intercalate ts ++ '\n' :: s) =
      (tokenize startRecord [] s).map fun records => fields :: records
  | _, _, .nil, h => absurd rfl h
  | _, _, .cons ht .nil, _ => by
    rw [List.intercalate_singleton, ht.newline]
  | t :: t' :: ts, _, .cons ht (.cons ht' hts), _ => by
    rw [List.intercalate_cons_cons, List.append_assoc, List.append_assoc, List.singleton_append,
      ht.comma, tokenize_line s (.cons ht' hts) (by simp), Option.map_map]
    rfl

/-- A record that does not begin like a blank line begins with its first field. -/
theorem tokenize_startRecord {c : Char} (hc : c ∉ ['\n', '\r', ' ', '\t']) (s : Text) :
    tokenize startRecord [] (c :: s) = tokenize startField [] (c :: s) := by
  simp only [List.mem_cons, List.not_mem_nil, or_false, not_or] at hc
  rw [tokenize, tokenize]
  · rw [act, act, actStartRecord, if_neg hc.1, if_neg hc.2.1, if_neg (by tauto)]
  all_goals simp

theorem tokenize_whitespaceLine (s : Text) : ∀ {field : Text} (cur : Text),
    (∀ c ∈ field, c ∉ separators) → tokenize whitespaceLine cur (field ++ ',' :: s) =
      (tokenize startField [] s).map (consField (cur ++ field))
  | [], cur, _ => by simp [tokenize, act, actInField, perform]
  | c :: field, cur, h => by
    have hc := h c (by simp)
    have hfield : ∀ x ∈ field, x ∉ separators := fun x hx => h x (by simp [hx])
    have hn : ¬ c = '\n' := fun hn => hc (by rw [hn]; decide)
    have hr : ¬ c = '\r' := fun hr => hc (by rw [hr]; decide)
    rw [List.cons_append, tokenize]
    · rw [act, if_neg hn, if_neg hr]
      split_ifs
      · rw [perform, tokenize_whitespaceLine s (cur ++ [c]) hfield, List.append_assoc]
        rfl
      · rw [actInField_of_notMem hc, perform, tokenize_inField _ _ hfield, tokenize]
        · simp [act, actInField, perform]
        · simp
    · simp

theorem tokenize_startRecord_blank {c : Char} (hc : c = ' ' ∨ c = '\t') (s : Text) :
    tokenize startRecord [] (c :: s) = tokenize whitespaceLine [c] s := by
  rw [tokenize]
  · rcases hc with rfl | rfl <;> rfl
  · simp

/-- The first field of a record, also where it begins with blanks. -/
theorem tokenize_first (field s : Text) :
    tokenize startRecord [] (writeField field ++ ',' :: s) =
      (tokenize startField [] s).map (consField field) := by
  have hread := (reads_writeField field).comma s
  by_cases h : ∃ c ∈ field, c ∈ special
  · have hquoted : writeField field = '"' :: (doubleQuotes field ++ ['"']) := if_pos h
    rw [← hread, hquoted]
    exact tokenize_startRecord (by decide) _
  · have hplain : writeField field = field := if_neg h
    have hsep : ∀ x ∈ field, x ∉ separators := fun x hx hs =>
      h ⟨x, hx, mem_special_of_separators hs⟩
    rw [hplain] at hread ⊢
    rcases field with _ | ⟨c, t⟩
    · rw [← hread]
      exact tokenize_startRecord (by decide) s
    · by_cases hc : c = ' ' ∨ c = '\t'
      · have ht : ∀ x ∈ t, x ∉ separators := fun x hx => hsep x (List.mem_cons_of_mem _ hx)
        rw [List.cons_append, tokenize_startRecord_blank hc, tokenize_whitespaceLine s [c] ht]
        rfl
      · rw [← hread]
        refine tokenize_startRecord (fun hmem => ?_) _
        have hcs := hsep c List.mem_cons_self
        simp only [separators, List.mem_cons, List.not_mem_nil, or_false] at hmem hcs
        tauto

/-- **A written record of at least two fields is read back.** -/
theorem tokenize_writeLine {fields : List Text} (h : 2 ≤ fields.length) (s : Text) :
    tokenize startRecord [] (writeLine fields ++ '\n' :: s) =
      (tokenize startRecord [] s).map fun records => fields :: records := by
  match fields, h with
  | f :: f' :: fs, _ =>
    have hreads : List.Forall₂ Reads ((f' :: fs).map writeField) (f' :: fs) := by
      rw [List.forall₂_map_left_iff, List.forall₂_same]
      exact fun g _ => reads_writeField g
    have hline : writeLine (f :: f' :: fs) ++ '\n' :: s = writeField f ++
        ',' :: ([','].intercalate ((f' :: fs).map writeField) ++ '\n' :: s) := by
      simp only [writeLine, List.map_cons, List.intercalate_cons_cons, List.append_assoc,
        List.cons_append, List.nil_append]
    rw [hline, tokenize_first, tokenize_line s hreads (by simp), Option.map_map]
    rfl

theorem tokenize_writeCsv : ∀ {lines : List (List Text)}, (∀ l ∈ lines, 2 ≤ l.length) →
    tokenize startRecord [] (writeCsv lines) = some lines
  | [], _ => rfl
  | l :: lines, h => by
    have ih := tokenize_writeCsv fun l' hl' => h l' (List.mem_cons_of_mem _ hl')
    have hcons : writeCsv (l :: lines) = writeLine l ++ '\n' :: writeCsv lines := by
      unfold writeCsv
      rw [List.flatMap_cons, List.append_assoc, List.singleton_append]
    rw [hcons, tokenize_writeLine (h l (by simp)), ih, Option.map_some]

/-- **What is written is read back**: the header and the rows of a table of two or more columns. -/
theorem readCsv_writeCsv {header : List Text} {rows : List (List Text)} (h2 : 2 ≤ header.length)
    (h : ∀ r ∈ rows, r.length = header.length) :
    readCsv (writeCsv (header :: rows)) = some (header, rows) := by
  have hlines : ∀ l ∈ header :: rows, 2 ≤ l.length := by
    intro l hl
    rcases List.mem_cons.mp hl with rfl | hl
    · exact h2
    · rw [h l hl]
      exact h2
  have hpad : rows.map (pad header.length) = rows := by
    rw [List.map_congr_left fun r hr => ?_, List.map_id]
    rw [pad, h r hr, Nat.sub_self]
    exact List.append_nil r
  unfold readCsv
  rw [tokenize_writeCsv hlines]
  simp only
  rw [if_pos fun r hr => Nat.le_of_eq (h r hr), hpad]

/-! ### Fields that are not read back -/

/-- The first field of the first record, if there is one. -/
def firstField (o : Option (List (List Text))) : Option Text := (o.bind List.head?).bind List.head?

@[simp] theorem firstField_consField (v : Text) (o : Option (List (List Text))) :
    firstField (o.map (consField v)) = o.map fun _ => v := by
  rcases o with _ | _ | ⟨r, rs⟩ <;> rfl

@[simp] theorem firstField_cons (v : Text) (o : Option (List (List Text))) :
    firstField (o.map fun records => [v] :: records) = o.map fun _ => v := by
  rcases o with _ | rs <;> rfl

theorem eq_of_mem_map_const {o : Option (List (List Text))} {v w : Text}
    (h : v ∈ o.map fun _ => w) : v = w := by
  rcases o with _ | rs
  · simp at h
  · exact (Option.some.inj h).symm

/-- What is read of a field after a separator. -/
theorem firstField_separator {m : ReadState} (hm : m = inField ∨ m = quoteInQuoted ∨ m = startField)
    {c : Char} (hc : c ∈ separators) {cur s v : Text}
    (hv : v ∈ firstField (tokenize m cur (c :: s))) : v = cur := by
  have hact : tokenize m cur (c :: s) = perform (fun m' cur' => tokenize m' cur' s) cur c
      (actInField c) := by
    simp only [separators, List.mem_cons, List.not_mem_nil, or_false] at hc
    rcases hm with rfl | rfl | rfl <;> rcases hc with rfl | rfl | rfl <;> rfl
  rw [hact] at hv
  simp only [separators, List.mem_cons, List.not_mem_nil, or_false] at hc
  rcases hc with rfl | rfl | rfl
  all_goals
    simp only [actInField, perform] at hv
    simpa using eq_of_mem_map_const (by simpa using hv)

/-- A field only grows while it is read. -/
theorem prefix_firstField : ∀ (s : Text) {m : ReadState} {cur v : Text},
    m = inField ∨ m = inQuoted ∨ m = quoteInQuoted → v ∈ firstField (tokenize m cur s) → cur <+: v
  | [], m, cur, v, hm, hv => by
    rcases hm with rfl | rfl | rfl
    · obtain rfl : cur = v := by simpa [tokenize, firstField] using hv
      exact List.prefix_refl _
    · simp [tokenize, firstField] at hv
    · obtain rfl : cur = v := by simpa [tokenize, firstField] using hv
      exact List.prefix_refl _
  | c :: s, m, cur, v, hm, hv => by
    have hpush : ∀ m', m' = inField ∨ m' = inQuoted ∨ m' = quoteInQuoted →
        v ∈ firstField (tokenize m' (cur ++ [c]) s) → cur <+: v := fun m' hm' h =>
      (List.prefix_append cur [c]).trans (prefix_firstField s hm' h)
    by_cases hq : m = inQuoted
    · subst hq
      by_cases hc : c = '"'
      · subst hc
        exact prefix_firstField s (m := quoteInQuoted) (by simp)
          (by simpa [tokenize, act, perform] using hv)
      · exact hpush inQuoted (by simp) (by simpa [tokenize, act, perform, hc] using hv)
    · by_cases hsep : c ∈ separators
      · obtain rfl := firstField_separator (by tauto) hsep hv
        exact List.prefix_refl _
      · have ha := actInField_of_notMem hsep
        rcases hm with rfl | rfl | rfl
        · exact hpush inField (by simp) (by simpa [tokenize, act, perform, ha] using hv)
        · exact absurd rfl hq
        · by_cases hc : c = '"'
          · subst hc
            exact hpush inQuoted (by simp) (by simpa [tokenize, act, perform] using hv)
          · exact hpush inField (by simp) (by simpa [tokenize, act, perform, ha, hc] using hv)

/-- The number of quotes a text begins with. -/
def leadingQuotes (s : Text) : ℕ := (s.takeWhile (· = '"')).length

theorem leadingQuotes_replicate_append (n : ℕ) {s : Text} (h : s.head? ≠ some '"') :
    leadingQuotes (List.replicate n '"' ++ s) = n := by
  unfold leadingQuotes
  induction n with
  | zero =>
    rcases s with _ | ⟨c, s⟩
    · rfl
    · have hc : c ≠ '"' := fun he => h (by rw [he]; rfl)
      simp [hc]
  | succ n ih => simpa [List.replicate_succ] using ih

theorem exists_replicate_quotes (s : Text) : ∃ n t, s = List.replicate n '"' ++ t ∧
    t.head? ≠ some '"' := by
  induction s with
  | nil => exact ⟨0, [], rfl, by simp⟩
  | cons c s ih =>
    by_cases hc : c = '"'
    · obtain ⟨n, t, rfl, ht⟩ := ih
      exact ⟨n + 1, t, by rw [hc]; rfl, ht⟩
    · exact ⟨0, c :: s, rfl, by simpa using hc⟩

theorem leadingQuotes_of_start {n : ℕ} {c : Char} {v : Text} (hc : c ≠ '"')
    (h : List.replicate n '"' ++ [c] <+: v) : leadingQuotes v = n := by
  obtain ⟨t, rfl⟩ := h
  rw [List.append_assoc]
  exact leadingQuotes_replicate_append n (by simpa using hc)

theorem leadingQuotes_replicate (n : ℕ) : leadingQuotes (List.replicate n '"') = n := by
  have h := leadingQuotes_replicate_append n (s := []) (by simp)
  rwa [List.append_nil] at h

/-- Only every second quote that follows an opening quote is read. -/
theorem leadingQuotes_inQuoted {s : Text} (hs : s.head? ≠ some '"') : ∀ (n k : ℕ) {v : Text},
    v ∈ firstField (tokenize inQuoted (List.replicate n '"') (List.replicate k '"' ++ s)) →
      leadingQuotes v ≤ n + k / 2
  | n, 0, v, hv => by
    rcases s with _ | ⟨c, s⟩
    · simp [tokenize, firstField] at hv
    · have hc : c ≠ '"' := fun he => hs (by rw [he]; rfl)
      have hpre : List.replicate n '"' ++ [c] <+: v :=
        prefix_firstField s (m := inQuoted) (by simp)
          (by simpa [tokenize, act, perform, hc] using hv)
      rw [leadingQuotes_of_start hc hpre]
      omega
  | n, 1, v, hv => by
    have hv' : v ∈ firstField (tokenize quoteInQuoted (List.replicate n '"') s) := by
      simpa [tokenize, act, perform] using hv
    rcases s with _ | ⟨c, s⟩
    · obtain rfl : List.replicate n '"' = v := by simpa [tokenize, firstField] using hv'
      exact (leadingQuotes_replicate n).le
    · have hc : c ≠ '"' := fun he => hs (by rw [he]; rfl)
      by_cases hsep : c ∈ separators
      · rw [firstField_separator (by simp) hsep hv']
        exact (leadingQuotes_replicate n).le
      · have hpre : List.replicate n '"' ++ [c] <+: v :=
          prefix_firstField s (m := inField) (by simp)
            (by simpa [tokenize, act, perform, hc, actInField_of_notMem hsep] using hv')
        rw [leadingQuotes_of_start hc hpre]
        omega
  | n, k + 2, v, hv => by
    have hstep : v ∈ firstField (tokenize inQuoted (List.replicate (n + 1) '"')
        (List.replicate k '"' ++ s)) := by
      rw [List.replicate_succ']
      simpa [List.replicate_succ, tokenize, act, perform] using hv
    have := leadingQuotes_inQuoted hs (n + 1) k hstep
    omega

theorem exists_first_separator {field : Text} (h : ∃ c ∈ field, c ∈ separators) :
    ∃ a x b, field = a ++ x :: b ∧ (∀ c ∈ a, c ∉ separators) ∧ x ∈ separators := by
  induction field with
  | nil => simp at h
  | cons y field ih =>
    by_cases hy : y ∈ separators
    · exact ⟨[], y, field, rfl, by simp, hy⟩
    · obtain ⟨c, hc, hsep⟩ := h
      have hc' : c ∈ field := by
        rcases List.mem_cons.mp hc with rfl | hc
        · exact absurd hsep hy
        · exact hc
      obtain ⟨a, x, b, rfl, ha, hx⟩ := ih ⟨c, hc', hsep⟩
      refine ⟨y :: a, x, b, rfl, fun z hz => ?_, hx⟩
      rcases List.mem_cons.mp hz with rfl | hz
      · exact hy
      · exact ha z hz

/-- **A field that is not bare is never read back**, whatever the rest of the file is. -/
theorem bare_of_firstField {field s : Text}
    (h : field ∈ firstField (tokenize startField [] (field ++ ',' :: s))) : Bare field := by
  by_cases hq : field.head? = some '"'
  · -- too few of the quotes in front are read
    obtain ⟨rest, rfl⟩ : ∃ rest, field = '"' :: rest := by
      rcases field with _ | ⟨c, rest⟩
      · simp at hq
      · exact ⟨rest, by rw [Option.some.inj hq]⟩
    obtain ⟨n, t, rfl, ht⟩ := exists_replicate_quotes rest
    have hread : '"' :: (List.replicate n '"' ++ t) ∈ firstField (tokenize inQuoted
        (List.replicate 0 '"') (List.replicate n '"' ++ (t ++ ',' :: s))) := by
      simpa [tokenize, act, actStartField, perform] using h
    have hle := leadingQuotes_inQuoted (s := t ++ ',' :: s) (by
      rcases t with _ | ⟨c, t⟩
      · simp
      · simpa using ht) 0 n hread
    have heq := leadingQuotes_replicate_append (n + 1) ht
    rw [List.replicate_succ, List.cons_append] at heq
    omega
  · refine ⟨fun c hc hsep => ?_, hq⟩
    -- the field ends at its first separator
    obtain ⟨a, x, b, rfl, ha, hx⟩ := exists_first_separator ⟨c, hc, hsep⟩
    have hread : a ++ x :: b ∈ firstField (tokenize startField [] (a ++ x :: (b ++ ',' :: s))) := by
      simpa using h
    have hlen : (a ++ x :: b).length ≠ a.length := by simp
    refine hlen (congrArg List.length ?_)
    by_cases hnil : a = []
    · subst hnil
      exact firstField_separator (by simp) hx hread
    · have hbare : Bare a := by
        refine ⟨ha, fun hqa => hq ?_⟩
        rcases a with _ | ⟨y, a⟩
        · exact absurd rfl hnil
        · exact hqa
      rw [tokenize_bare hbare hnil] at hread
      exact firstField_separator (by simp) hx hread

end Magm.Lib.Csv
