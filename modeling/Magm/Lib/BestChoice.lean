import Mathlib.Data.Finset.Card
import Mathlib.Data.Finset.Dedup
import Mathlib.Data.List.Dedup
import Mathlib.Order.Lattice

/-! # Choosing what is best

A scan that keeps an element whenever it is better than what it has ends with the first of the best
elements (`argmax_eq_some`).

A greedy run adds elements to a set, each one that is best when it is added. Where several are best
the run has a choice: `BestPath F U S ts` says that `ts` is what some run adds to `S`. A run that
scans the remaining elements in some order takes such a path, and with an order of its own every
path is taken (`SetOrder.ofList`). -/

namespace Magm.Lib.BestChoice

/-! ### Scans -/

section Scan
variable {α β : Type*} [LinearOrder β]

/-- The loop over `xs` with the best element so far and its score. A missing score is no better than
any. -/
def scan (score : α → Option β) : List α → Option α × β → Option α × β
  | [], best => best
  | x :: xs, best =>
    scan score xs (match score x with
      | some sc => if best.2 < sc then (some x, sc) else best
      | none => best)

/-- The element a scan ends with that has no element yet, and the score `init`. -/
def argmax (score : α → Option β) (init : β) (xs : List α) : Option α :=
  (scan score xs (none, init)).1

/-- What is in front of `w` is worse, and what is behind is no better. -/
def FirstBest (f : α → β) (xs : List α) (w : α) : Prop :=
  ∃ before after, xs = before ++ w :: after ∧ (∀ a ∈ before, f a < f w) ∧ ∀ a ∈ after, f a ≤ f w

namespace FirstBest

variable {f : α → β} {xs : List α} {w : α}

theorem mem (h : FirstBest f xs w) : w ∈ xs := by
  obtain ⟨before, after, rfl, -, -⟩ := h
  exact List.mem_append_right _ List.mem_cons_self

theorem le (h : FirstBest f xs w) {a : α} (ha : a ∈ xs) : f a ≤ f w := by
  obtain ⟨before, after, rfl, hbefore, hafter⟩ := h
  rcases List.mem_append.mp ha with ha | ha
  · exact (hbefore a ha).le
  · rcases List.mem_cons.mp ha with rfl | ha
    · exact le_rfl
    · exact hafter a ha

/-- Something worse in front makes no difference. -/
theorem cons {x : α} (h : FirstBest f xs w) (hx : f x < f w) : FirstBest f (x :: xs) w := by
  obtain ⟨before, after, rfl, hbefore, hafter⟩ := h
  refine ⟨x :: before, after, rfl, fun a ha => ?_, hafter⟩
  rcases List.mem_cons.mp ha with rfl | ha
  · exact hx
  · exact hbefore a ha

/-- A best element that comes first is the one. -/
theorem eq_head {x : α} (h : FirstBest f (x :: xs) w) (hx : ∀ a ∈ xs, f a ≤ f x) : w = x := by
  obtain ⟨before, after, heq, hbefore, -⟩ := h
  cases before with
  | nil => exact (List.cons.inj heq).1.symm
  | cons b before =>
    obtain ⟨rfl, rfl⟩ := List.cons.inj heq
    have hw : f w ≤ f x := hx w (List.mem_append_right _ List.mem_cons_self)
    exact absurd (hbefore x List.mem_cons_self) (not_lt.mpr hw)

end FirstBest

variable {score : α → Option β} {f : α → β} {init : β}

/-- From an element `w` the scan goes to the first best element, if that is better than `w`. -/
theorem scan_some : ∀ {xs : List α} (w : α), (∀ x ∈ xs, score x = some (f x)) →
    ∃ w', scan score xs (some w, f w) = (some w', f w') ∧
      (w' = w ∧ (∀ a ∈ xs, f a ≤ f w) ∨ f w < f w' ∧ FirstBest f xs w')
  | [], w, _ => ⟨w, rfl, Or.inl ⟨rfl, fun _ ha => absurd ha List.not_mem_nil⟩⟩
  | x :: xs, w, hf => by
    have hxs : ∀ y ∈ xs, score y = some (f y) := fun y hy => hf y (List.mem_cons_of_mem _ hy)
    simp only [scan, hf x List.mem_cons_self]
    split_ifs with hlt
    · obtain ⟨w', hscan, ⟨rfl, hall⟩ | ⟨hlt', hfirst⟩⟩ := scan_some x hxs
      · refine ⟨_, hscan, Or.inr ⟨hlt, [], xs, rfl, fun _ ha => ?_, hall⟩⟩
        exact absurd ha List.not_mem_nil
      · exact ⟨w', hscan, Or.inr ⟨hlt.trans hlt', hfirst.cons hlt'⟩⟩
    · rw [not_lt] at hlt
      obtain ⟨w', hscan, ⟨rfl, hall⟩ | ⟨hlt', hfirst⟩⟩ := scan_some w hxs
      · refine ⟨_, hscan, Or.inl ⟨rfl, fun a ha => ?_⟩⟩
        rcases List.mem_cons.mp ha with rfl | ha
        · exact hlt
        · exact hall a ha
      · exact ⟨w', hscan, Or.inr ⟨hlt', hfirst.cons (hlt.trans_lt hlt')⟩⟩

/-- **A scan ends with the first of the best elements.** -/
theorem argmax_eq_some {xs : List α} (hf : ∀ x ∈ xs, score x = some (f x))
    (hinit : ∀ x ∈ xs, init < f x) (hne : xs ≠ []) :
    ∃ w, argmax score init xs = some w ∧ FirstBest f xs w := by
  obtain ⟨x, xs, rfl⟩ := List.exists_cons_of_ne_nil hne
  have hxs : ∀ y ∈ xs, score y = some (f y) := fun y hy => hf y (List.mem_cons_of_mem _ hy)
  unfold argmax
  simp only [scan, hf x List.mem_cons_self, if_pos (hinit x List.mem_cons_self)]
  obtain ⟨w, hscan, ⟨rfl, hall⟩ | ⟨hlt, hfirst⟩⟩ := scan_some x hxs
  · refine ⟨w, by rw [hscan], [], xs, rfl, fun _ ha => absurd ha List.not_mem_nil, hall⟩
  · exact ⟨w, by rw [hscan], hfirst.cons hlt⟩

end Scan

/-! ### Enumerations of sets -/

section Order
variable {α : Type*}

/-- An order in which the subsets of `U` are enumerated. -/
structure SetOrder (U : Finset α) where
  enum : Finset α → List α
  nodup : ∀ s ⊆ U, (enum s).Nodup
  mem : ∀ s ⊆ U, ∀ a, a ∈ enum s ↔ a ∈ s

namespace SetOrder

variable {U : Finset α}

theorem enum_ne_nil (o : SetOrder U) {s : Finset α} (hs : s ⊆ U) (hne : s ≠ ∅) :
    o.enum s ≠ [] := by
  obtain ⟨a, ha⟩ := Finset.nonempty_iff_ne_empty.mpr hne
  exact List.ne_nil_of_mem ((o.mem s hs a).mpr ha)

/-- The order of a list. -/
def ofList [DecidableEq α] (l : List α) (hl : l.Nodup) (hU : l.toFinset = U) : SetOrder U where
  enum s := l.filter fun a => a ∈ s
  nodup _ _ := hl.filter _
  mem s hs a := by
    rw [List.mem_filter, decide_eq_true_eq, ← List.mem_toFinset, hU]
    exact ⟨fun h => h.2, fun h => ⟨hs h, h⟩⟩

end SetOrder

end Order

/-! ### Greedy paths -/

section Path
variable {α β : Type*} [DecidableEq α] [LinearOrder β]

/-- No element of `U` is better to add to `S` than `t`. -/
structure BestNext (F : Finset α → β) (U S : Finset α) (t : α) : Prop where
  mem : t ∈ U
  notMem : t ∉ S
  best : ∀ t' ∈ U, t' ∉ S → F (insert t' S) ≤ F (insert t S)

/-- The elements can be added to `S` one after the other, each a best one when it is added. -/
def BestPath (F : Finset α → β) (U : Finset α) : Finset α → List α → Prop
  | _, [] => True
  | S, t :: ts => BestNext F U S t ∧ BestPath F U (insert t S) ts

variable {F : Finset α → β} {U : Finset α}

theorem insert_union_toFinset (t : α) (S : Finset α) (ts : List α) :
    insert t S ∪ ts.toFinset = S ∪ (t :: ts).toFinset := by
  rw [List.toFinset_cons, Finset.union_insert, Finset.insert_union]

theorem BestPath.mem : ∀ {ts : List α} {S : Finset α}, BestPath F U S ts →
    ∀ t ∈ ts, t ∈ U ∧ t ∉ S
  | [], _, _, t, ht => absurd ht List.not_mem_nil
  | t :: ts, S, ⟨hnext, hpath⟩, t', ht' => by
    rcases List.mem_cons.mp ht' with rfl | ht'
    · exact ⟨hnext.mem, hnext.notMem⟩
    · obtain ⟨hU, hS⟩ := BestPath.mem hpath t' ht'
      exact ⟨hU, fun h => hS (Finset.mem_insert_of_mem h)⟩

theorem BestPath.nodup : ∀ {ts : List α} {S : Finset α}, BestPath F U S ts → ts.Nodup
  | [], _, _ => List.nodup_nil
  | t :: _, S, ⟨_, hpath⟩ =>
    List.nodup_cons.mpr ⟨fun h => (hpath.mem t h).2 (Finset.mem_insert_self t S), hpath.nodup⟩

/-- Every step of a path is best where it is made. -/
theorem BestPath.next : ∀ {ts : List α} {S : Finset α}, BestPath F U S ts →
    ∀ {us vs : List α} {t : α}, ts = us ++ t :: vs → BestNext F U (S ∪ us.toFinset) t
  | [], _, _, us, vs, t, heq => absurd heq.symm (List.append_ne_nil_of_right_ne_nil _ (by simp))
  | t' :: ts, S, ⟨hnext, hpath⟩, us, vs, t, heq => by
    cases us with
    | nil =>
      obtain ⟨rfl, -⟩ := List.cons.inj heq
      simpa using hnext
    | cons u us =>
      obtain ⟨rfl, rfl⟩ := List.cons.inj heq
      rw [← insert_union_toFinset]
      exact hpath.next rfl

/-- One step from the same set is as good as the other. -/
theorem BestNext.score_eq {S : Finset α} {t t' : α} (h : BestNext F U S t)
    (h' : BestNext F U S t') : F (insert t S) = F (insert t' S) :=
  le_antisymm (h'.best t h.mem h.notMem) (h.best t' h'.mem h'.notMem)

/-- Two paths of one length end with one score if they have no choice before their last steps. -/
theorem BestPath.score_eq_of_unique : ∀ {ts ts' : List α} {S : Finset α}, BestPath F U S ts →
    BestPath F U S ts' → ts.length = ts'.length →
      (∀ us t t', us.length + 1 < ts.length → BestPath F U S us →
        BestNext F U (S ∪ us.toFinset) t → BestNext F U (S ∪ us.toFinset) t' → t = t') →
      F (S ∪ ts.toFinset) = F (S ∪ ts'.toFinset)
  | [], [], _, _, _, _, _ => rfl
  | [t], [t'], S, ⟨hnext, _⟩, ⟨hnext', _⟩, _, _ => by
    rw [← insert_union_toFinset, ← insert_union_toFinset]
    simpa using hnext.score_eq hnext'
  | t :: u :: ts, t' :: u' :: ts', S, ⟨hnext, hpath⟩, ⟨hnext', hpath'⟩, hlen, hunique => by
    have hS : S ∪ [].toFinset = S := by simp
    obtain rfl : t = t' := hunique [] t t' (by simp) trivial (hS.symm ▸ hnext) (hS.symm ▸ hnext')
    rw [← insert_union_toFinset, ← insert_union_toFinset t S (u' :: ts')]
    refine hpath.score_eq_of_unique hpath' (by simpa using hlen) fun us v v' hus hpus hv hv' => ?_
    rw [insert_union_toFinset] at hv hv'
    exact hunique (t :: us) v v' (by simpa using hus) ⟨hnext, hpus⟩ hv hv'

end Path

end Magm.Lib.BestChoice
