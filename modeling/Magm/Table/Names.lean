import Magm.Table.Cells

/-! # Tasks, scenes and thread keys

The kernel names a task with up to 15 bytes that no one restricts (`Comm`). A scene is a directory
of `stress-results` (`cpu`, `io`, `memory`, `mixed`, `prod_mixed`), and its name is the `LoadType`.
`build_windows` writes scene, pid and name into one text, the thread key. -/

namespace Magm.Table.Names

open Magm.Lib.Chars Magm.Table.Cells

/-- The name of a task: what precedes the NUL in `char comm[16]`. -/
structure Comm where
  text : Text
  ne_nil : text ≠ []
  length_le : text.length ≤ 15
  noNul : '\x00' ∉ text

namespace Comm

def ofText (t : Text) (h : t ≠ [] ∧ t.length ≤ 15 ∧ '\x00' ∉ t) : Comm := ⟨t, h.1, h.2.1, h.2.2⟩

/-- The idle task of CPU 0, and a task like any other. -/
def swapper : Comm := ofText "swapper/0".toList (by decide)
def worker : Comm := ofText "worker".toList (by decide)

end Comm

/-- The name of a scene. -/
structure Scene where
  text : Text
  read : text ∉ missingTokens
  length_le : text.length ≤ 255
  plain : ∀ c ∈ text, c ∉ [',', '"', ':', '\n', '\r', '\x00']
  noPid : ¬ "pid=".toList <:+: text

/-- The scene `cpu`. -/
def cpuScene : Scene := ⟨"cpu".toList, by decide, by decide, by decide, by decide⟩

/-- A thread of a scene, under the name it had when it was scheduled. -/
structure Thread where
  scene : Scene
  pid : ℕ
  name : Comm
  pid_lt : pid < 2 ^ 31
  oneLine : '\n' ∉ name.text

/-- The column `thread_key`: `LoadType + ":pid=" + pid + ":" + thread`. -/
def threadKeyText (loadType : Text) (pid : ℤ) (thread : Text) : Text :=
  loadType ++ ":pid=".toList ++ dec pid ++ ':' :: thread

def Thread.key (t : Thread) : Text := threadKeyText t.scene.text t.pid t.name.text

/-- No missing-value token has a colon. -/
theorem colon_notMem_missingTokens {t : Text} (h : ':' ∈ t) : t ∉ missingTokens := by
  intro ht
  have hall : ∀ s ∈ missingTokens, ':' ∉ s := by decide
  exact hall t ht h

theorem threadKeyText_read (loadType : Text) (pid : ℤ) (thread : Text) :
    threadKeyText loadType pid thread ∉ missingTokens :=
  colon_notMem_missingTokens (by simp [threadKeyText])

/-- The cells of a thread in the columns `LoadType` and `thread_key`. -/
def Thread.loadType (t : Thread) : Cell := Cell.ofText t.scene.text t.scene.read
def Thread.threadKey (t : Thread) : Cell := Cell.ofText t.key (threadKeyText_read _ _ _)

theorem mem_threadKeyText {loadType thread : Text} {pid : ℤ} {c : Char}
    (h : c ∈ threadKeyText loadType pid thread) :
    c ∈ loadType ∨ c ∈ ":pid=".toList ∨ c ∈ dec pid ∨ c ∈ thread := by
  simp only [threadKeyText, List.mem_append, List.mem_cons] at h
  rcases h with ((h | h) | h) | h | h
  · exact Or.inl h
  · exact Or.inr (Or.inl h)
  · exact Or.inr (Or.inr (Or.inl h))
  · exact Or.inr (Or.inl (by rw [h]; decide))
  · exact Or.inr (Or.inr (Or.inr h))

/-- A character that is in no number and in no scene. -/
structure Foreign (c : Char) : Prop where
  scene : ∀ s : Scene, c ∉ s.text
  literal : c ∉ ":pid=".toList
  minus : c ≠ '-'
  digit : c.isDigit = false

theorem foreign_of_mem {c : Char} (h : c ∈ [',', '"', '\n', '\r', '\x00']) : Foreign c := by
  refine ⟨fun s hs => s.plain c hs ?_, ?_, ?_, ?_⟩
  · simp only [List.mem_cons, List.not_mem_nil, or_false] at h ⊢
    tauto
  all_goals
    simp only [List.mem_cons, List.not_mem_nil, or_false] at h
    rcases h with rfl | rfl | rfl | rfl | rfl <;> decide

theorem Foreign.notMem_dec {c : Char} (h : Foreign c) (z : ℤ) : c ∉ dec z := by
  intro hc
  rcases mem_dec hc with hm | hd
  · exact h.minus hm
  · rw [h.digit] at hd
    exact absurd hd (by simp)

/-- Such a character is in a thread key only through the name. -/
theorem Foreign.mem_key {c : Char} (h : Foreign c) (t : Thread) : c ∈ t.key ↔ c ∈ t.name.text := by
  constructor
  · intro hc
    rcases mem_threadKeyText hc with hc | hc | hc | hc
    · exact absurd hc (h.scene _)
    · exact absurd hc h.literal
    · exact absurd hc (h.notMem_dec _)
    · exact hc
  · intro hc
    simp [Thread.key, threadKeyText, hc]

theorem length_key_le (t : Thread) : t.key.length ≤ 286 := by
  have h1 := t.scene.length_le
  have h2 := t.name.length_le
  have h3 : (decNat t.pid).length ≤ 10 :=
    length_decNat_le (by decide) (Nat.lt_of_lt_of_le t.pid_lt (by decide))
  simp only [Thread.key, threadKeyText, dec_natCast, List.length_append, List.length_cons]
  have h4 : ":pid=".toList.length = 5 := rfl
  omega

end Magm.Table.Names
