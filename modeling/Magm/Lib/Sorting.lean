import Mathlib.Data.List.Sort

/-! # Correct sorts

`Sorter R` is a sort whose result is only known to be a permutation in the order `R`: what may be
assumed of a sort that is not stable. `sortBy key` is the stable sort by a key. Where no two
elements have equivalent keys every correct sort of every order of the elements gives the same list
(`run_eq_of_perm`). -/

namespace Magm.Lib.Sorting

variable {α κ : Type*}

/-- A correct sort for the order `R`. -/
structure Sorter (R : α → α → Prop) where
  run : List α → List α
  perm : ∀ l, (run l).Perm l
  sorted : ∀ l, (run l).Pairwise R

namespace Sorter

variable {R : α → α → Prop} (s : Sorter R)

@[simp] theorem mem_run {l : List α} {a : α} : a ∈ s.run l ↔ a ∈ l := (s.perm l).mem_iff

@[simp] theorem length_run (l : List α) : (s.run l).length = l.length := (s.perm l).length_eq

/-- **Where the order separates the elements, all sorts of all their orders agree.** -/
theorem run_eq_of_perm (s s' : Sorter R) {l l' : List α} (hp : l.Perm l')
    (hR : ∀ a ∈ l, ∀ b ∈ l, R a b → R b a → a = b) : s.run l = s'.run l' := by
  refine List.Perm.eq_of_pairwise (fun a b ha hb => ?_) (s.sorted l) (s'.sorted l')
    ((s.perm l).trans (hp.trans (s'.perm l').symm))
  exact hR a (s.mem_run.mp ha) b (hp.mem_iff.mpr (s'.mem_run.mp hb))

/-- Insertion sort, which is also stable. -/
def insertion (R : α → α → Prop) [DecidableRel R] [Std.Total R] [IsTrans α R] : Sorter R where
  run := List.insertionSort R
  perm := List.perm_insertionSort R
  sorted := List.pairwise_insertionSort R

end Sorter

/-! ### Stable sorting by a key -/

section SortBy
variable [LinearOrder κ]

/-- The order of a sort by `key`. -/
def KeyLe (key : α → κ) (a b : α) : Prop := key a ≤ key b

instance (key : α → κ) : DecidableRel (KeyLe key) := fun a b => by unfold KeyLe; infer_instance
instance (key : α → κ) : Std.Total (KeyLe key) := ⟨fun a b => le_total (key a) (key b)⟩
instance (key : α → κ) : IsTrans α (KeyLe key) := ⟨fun _ _ _ h1 h2 => le_trans h1 h2⟩

def sortBy (key : α → κ) (l : List α) : List α := l.insertionSort (KeyLe key)

variable (key : α → κ) (l : List α)

theorem sortBy_perm : (sortBy key l).Perm l := List.perm_insertionSort _ _

@[simp] theorem mem_sortBy {a : α} : a ∈ sortBy key l ↔ a ∈ l := (sortBy_perm key l).mem_iff

theorem sortBy_sorted : (sortBy key l).Pairwise fun a b => key a ≤ key b :=
  List.pairwise_insertionSort (KeyLe key) l

/-- With different keys the order of the elements does not matter. -/
theorem sortBy_eq_of_perm {l l' : List α} (hp : l.Perm l') (hn : (l.map key).Nodup) :
    sortBy key l = sortBy key l' :=
  Sorter.run_eq_of_perm (Sorter.insertion (KeyLe key)) (Sorter.insertion (KeyLe key)) hp
    fun _ ha _ hb h h' => List.inj_on_of_nodup_map hn ha hb (le_antisymm h h')

/-- **What is in order already** keeps its order: the sort is stable. -/
theorem filter_sortBy {p : α → Bool} {l : List α}
    (h : (l.filter p).Pairwise fun a b => key a ≤ key b) :
    (sortBy key l).filter p = l.filter p := by
  have hsub : (l.filter p).Sublist (sortBy key l) :=
    List.sublist_insertionSort h List.filter_sublist
  have hfilter : (l.filter p).Sublist ((sortBy key l).filter p) := by
    have hmore := hsub.filter p
    simp only [List.filter_filter, Bool.and_self] at hmore
    exact hmore
  exact (hfilter.eq_of_length ((sortBy_perm key l).filter p).length_eq.symm).symm

theorem sortBy_eq_self {l : List α} (h : l.Pairwise fun a b => key a ≤ key b) :
    sortBy key l = l := List.Pairwise.insertionSort_eq h

end SortBy

/-- **A strictly ascending list is its set of elements.** -/
theorem eq_of_ascending [Preorder κ] (key : α → κ) {l l' : List α}
    (h : l.Pairwise fun a b => key a < key b) (h' : l'.Pairwise fun a b => key a < key b)
    (hmem : ∀ a, a ∈ l ↔ a ∈ l') : l = l' := by
  have hn : l.Nodup := h.imp fun hlt heq => (heq ▸ hlt).false
  have hn' : l'.Nodup := h'.imp fun hlt heq => (heq ▸ hlt).false
  refine List.Perm.eq_of_pairwise (fun a b _ _ hab hba => ?_) h h'
    ((List.perm_ext_iff_of_nodup hn hn').mpr hmem)
  exact absurd hab hba.asymm

/-- What is in front is related to what is behind. -/
theorem pairwise_getElem? {R : α → α → Prop} {l : List α} (h : l.Pairwise R) {i j : ℕ} {a b : α}
    (ha : l[i]? = some a) (hb : l[j]? = some b) (hij : i < j) : R a b := by
  obtain ⟨hi, rfl⟩ := List.getElem?_eq_some_iff.mp ha
  obtain ⟨hj, rfl⟩ := List.getElem?_eq_some_iff.mp hb
  exact List.pairwise_iff_getElem.mp h i j hi hj hij

/-- The last of an ascending list is its greatest. -/
theorem le_of_getLast? [Preorder κ] {key : α → κ} {l : List α}
    (hs : l.Pairwise fun a b => key a ≤ key b) {a b : α} (ha : l.getLast? = some a) (hb : b ∈ l) :
    key b ≤ key a := by
  obtain ⟨l', rfl⟩ := List.getLast?_eq_some_iff.mp ha
  rcases List.mem_append.mp hb with hb | hb
  · exact (List.pairwise_append.mp hs).2.2 b hb a (List.mem_singleton_self a)
  · rw [List.mem_singleton.mp hb]

/-- The elements of a list that stay in `p` once they are in it are a final part of the list. -/
theorem filter_not_append_filter {p : α → Bool} : ∀ {l : List α},
    l.Pairwise (fun a b => p a = true → p b = true) →
      (l.filter fun a => !p a) ++ l.filter p = l
  | [], _ => rfl
  | a :: l, h => by
    rw [List.pairwise_cons] at h
    by_cases hp : p a = true
    · have hall : ∀ b ∈ l, p b = true := fun b hb => h.1 b hb hp
      rw [List.filter_cons_of_neg (by rw [hp]; decide), List.filter_cons_of_pos hp,
        List.filter_eq_self.mpr hall,
        List.filter_eq_nil_iff.mpr fun b hb => by rw [hall b hb]; decide]
      rfl
    · have hn : (!p a) = true := by rw [Bool.not_eq_true] at hp; rw [hp]; rfl
      rw [List.filter_cons_of_pos (p := fun a => !p a) hn, List.filter_cons_of_neg hp,
        List.cons_append, filter_not_append_filter h.2]

end Magm.Lib.Sorting
