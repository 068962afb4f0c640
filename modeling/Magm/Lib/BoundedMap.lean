import Mathlib.Data.List.AList
import Mathlib.Data.Finset.Card

/-! # Maps with room for a bounded number of keys

A `Bounded` map takes a new key only while it holds fewer than `cap` keys; a key it holds can
always be overwritten. Updating it with a list of pairs (`updateAll`), skipping the updates that
fail, leaves the last value of every key that was admitted (`lookup_updateAll`). -/

namespace Magm.Lib.BoundedMap

variable {κ ν : Type*} [DecidableEq κ]

/-! ### The last value of a key -/

/-- The value of the last pair with key `k`. -/
def lastVal (k : κ) : List (κ × ν) → Option ν
  | [] => none
  | p :: l => (lastVal k l).or (if p.1 = k then some p.2 else none)

@[simp] theorem lastVal_nil (k : κ) : lastVal k ([] : List (κ × ν)) = none := rfl

theorem lastVal_append (k : κ) : ∀ l l' : List (κ × ν),
    lastVal k (l ++ l') = (lastVal k l').or (lastVal k l)
  | [], l' => by simp
  | p :: l, l' => by
    rw [List.cons_append, lastVal, lastVal_append k l l', lastVal, Option.or_assoc]

@[simp] theorem lastVal_concat (k : κ) (l : List (κ × ν)) (p : κ × ν) :
    lastVal k (l ++ [p]) = if p.1 = k then some p.2 else lastVal k l := by
  rw [lastVal_append]
  simp only [lastVal, Option.none_or]
  split_ifs <;> simp

theorem lastVal_eq_none {k : κ} : ∀ {l : List (κ × ν)}, lastVal k l = none ↔ k ∉ l.map Prod.fst
  | [] => by simp
  | p :: l => by
    rw [lastVal, Option.or_eq_none_iff, lastVal_eq_none, List.map_cons, List.mem_cons, not_or,
      and_comm]
    refine and_congr ?_ Iff.rfl
    rw [eq_comm (a := k)]
    split_ifs with h <;> simp [h]

theorem lastVal_append_of_mem {k : κ} {l l' : List (κ × ν)} (h : k ∈ l'.map Prod.fst) :
    lastVal k (l ++ l') = lastVal k l' := by
  rw [lastVal_append]
  exact Option.or_of_isSome (Option.isSome_iff_ne_none.mpr fun hn => lastVal_eq_none.mp hn h)

/-- The last value is one of the values. -/
theorem mem_of_lastVal {k : κ} {v : ν} : ∀ {l : List (κ × ν)}, lastVal k l = some v → (k, v) ∈ l
  | [], h => by simp at h
  | p :: l, h => by
    rcases hl : lastVal k l with _ | w
    · rw [lastVal, hl, Option.none_or] at h
      split_ifs at h with hk
      obtain rfl := Option.some.inj h
      rw [← hk]
      exact List.mem_cons_self
    · rw [lastVal, hl, Option.some_or] at h
      exact List.mem_cons_of_mem _ (mem_of_lastVal (hl.trans h))

/-- **The last value of a sorted list** is that of a last element with the key. -/
theorem exists_last_of_lastVal {α ρ : Type*} [Preorder ρ] {rank : α → ρ} {f : α → κ} {g : α → ν}
    {k : κ} {v : ν} : ∀ {l : List α}, l.Pairwise (fun a b => rank a ≤ rank b) →
      lastVal k (l.map fun a => (f a, g a)) = some v →
        ∃ a ∈ l, f a = k ∧ g a = v ∧ ∀ b ∈ l, f b = k → rank b ≤ rank a
  | [], _, h => by simp at h
  | a :: l, hs, h => by
    rw [List.pairwise_cons] at hs
    rw [List.map_cons, lastVal] at h
    rcases hl : lastVal k (l.map fun a => (f a, g a)) with _ | v'
    · rw [hl, Option.none_or] at h
      split_ifs at h with ha
      refine ⟨a, List.mem_cons_self, ha, Option.some.inj h, fun b hb hk => ?_⟩
      rcases List.mem_cons.mp hb with rfl | hb
      · exact le_rfl
      · rw [lastVal_eq_none, List.map_map] at hl
        exact absurd (List.mem_map.mpr ⟨b, hb, hk⟩) hl
    · rw [hl, Option.some_or] at h
      obtain ⟨a', ha', hf, hg, hlast⟩ := exists_last_of_lastVal hs.2 (hl.trans h)
      refine ⟨a', List.mem_cons_of_mem _ ha', hf, hg, fun b hb hk => ?_⟩
      rcases List.mem_cons.mp hb with rfl | hb
      · exact hs.1 a' ha'
      · exact hlast b hb hk

/-- Keys that are renamed apart, and values that are mapped. -/
theorem lastVal_map {κ' ν' : Type*} [DecidableEq κ'] {f : κ → κ'} (hf : Function.Injective f)
    (g : ν → ν') (k : κ) : ∀ l : List (κ × ν),
      lastVal (f k) (l.map fun p => (f p.1, g p.2)) = (lastVal k l).map g
  | [] => rfl
  | p :: l => by
    rw [List.map_cons, lastVal, lastVal_map hf g k l, lastVal, Option.map_or]
    congr 1
    by_cases hp : p.1 = k
    · rw [if_pos (congrArg f hp), if_pos hp, Option.map_some]
    · rw [if_neg fun h => hp (hf h), if_neg hp, Option.map_none]

/-- Where the values ascend, the last value of a key is its largest. -/
theorem lastVal_eq_some_iff_of_lt [LinearOrder ν] {k : κ} {v : ν} : ∀ {l : List (κ × ν)},
    l.Pairwise (fun p q => p.2 < q.2) →
      (lastVal k l = some v ↔ (k, v) ∈ l ∧ ∀ p ∈ l, p.1 = k → p.2 ≤ v)
  | [], _ => by simp
  | p :: l, h => by
    rw [List.pairwise_cons] at h
    obtain ⟨hp, hl⟩ := h
    have ih := lastVal_eq_some_iff_of_lt (k := k) (v := v) hl
    rw [lastVal]
    constructor
    · intro hv
      rcases hlast : lastVal k l with _ | w
      · rw [hlast, Option.none_or] at hv
        split_ifs at hv with hk
        obtain rfl := Option.some.inj hv
        refine ⟨by rw [← hk]; exact List.mem_cons_self, fun q hq hqk => ?_⟩
        rcases List.mem_cons.mp hq with rfl | hq
        · exact le_rfl
        · exact absurd (List.mem_map.mpr ⟨q, hq, hqk⟩) (lastVal_eq_none.mp hlast)
      · rw [hlast, Option.some_or] at hv
        obtain ⟨hmem, hmax⟩ := ih.mp (hlast.trans hv)
        refine ⟨List.mem_cons_of_mem _ hmem, fun q hq hqk => ?_⟩
        rcases List.mem_cons.mp hq with rfl | hq
        · exact (hp _ hmem).le
        · exact hmax q hq hqk
    · rintro ⟨hmem, hmax⟩
      rcases List.mem_cons.mp hmem with rfl | hmem
      · have hnone : lastVal k l = none := by
          rw [lastVal_eq_none, List.mem_map]
          rintro ⟨q, hq, hqk⟩
          exact absurd (hp q hq) (not_lt.mpr (hmax q (List.mem_cons_of_mem _ hq) hqk))
        rw [hnone, Option.none_or, if_pos rfl]
      · rw [ih.mpr ⟨hmem, fun q hq => hmax q (List.mem_cons_of_mem _ hq)⟩, Option.some_or]

/-! ### Admission -/

/-- The key occurs, and before its first occurrence fewer than `cap` keys do. -/
def Admits (cap : ℕ) (ks : List κ) (k : κ) : Prop :=
  k ∈ ks ∧ (ks.take (ks.idxOf k)).toFinset.card < cap

instance (cap : ℕ) (ks : List κ) (k : κ) : Decidable (Admits cap ks k) := by
  unfold Admits; infer_instance

section Admission
variable {cap : ℕ} {ks : List κ} {k : κ}

theorem admits_append_of_mem {ks' : List κ} (h : k ∈ ks) :
    Admits cap (ks ++ ks') k ↔ Admits cap ks k := by
  unfold Admits
  rw [List.idxOf_append_of_mem h, List.take_append_of_le_length List.idxOf_le_length]
  simp [h]

theorem admits_concat_self (h : k ∉ ks) : Admits cap (ks ++ [k]) k ↔ ks.toFinset.card < cap := by
  unfold Admits
  rw [List.idxOf_append_of_notMem h, List.idxOf_cons_self, Nat.add_zero, List.take_left]
  simp

/-- With at most `cap` different keys all of them are admitted. -/
theorem admits_of_card_le (hc : ks.toFinset.card ≤ cap) (h : k ∈ ks) : Admits cap ks k := by
  refine ⟨h, lt_of_lt_of_le (Finset.card_lt_card ?_) hc⟩
  rw [Finset.ssubset_iff_of_subset fun x hx => by
    simp only [List.mem_toFinset] at hx ⊢
    exact List.mem_of_mem_take hx]
  refine ⟨k, by simpa using h, fun hk => ?_⟩
  rw [List.mem_toFinset, List.mem_take_iff_idxOf_lt h] at hk
  exact lt_irrefl _ hk

theorem card_toFinset_concat_of_mem (h : k ∈ ks) :
    (ks ++ [k]).toFinset.card = ks.toFinset.card := by
  congr 1
  ext x
  simp only [List.mem_toFinset, List.mem_append, List.mem_singleton, or_iff_left_iff_imp]
  rintro rfl
  exact h

theorem card_toFinset_concat_of_notMem (h : k ∉ ks) :
    (ks ++ [k]).toFinset.card = ks.toFinset.card + 1 := by
  rw [← Finset.card_insert_of_notMem (a := k) (s := ks.toFinset) (by simpa using h)]
  congr 1
  ext x
  simp

/-- Of more than `cap` different keys one is not admitted. -/
theorem exists_not_admits (hc : cap < ks.toFinset.card) : ∃ k ∈ ks, ¬ Admits cap ks k := by
  induction ks using List.reverseRecOn with
  | nil => simp at hc
  | append_singleton ks k ih =>
    by_cases hk : k ∈ ks
    · rw [card_toFinset_concat_of_mem hk] at hc
      obtain ⟨x, hx, hn⟩ := ih hc
      exact ⟨x, List.mem_append_left _ hx, by rwa [admits_append_of_mem hx]⟩
    · rw [card_toFinset_concat_of_notMem hk] at hc
      refine ⟨k, by simp, fun h => ?_⟩
      have hlt := (admits_concat_self hk).mp h
      omega

/-- **All keys are admitted exactly when there are at most `cap` of them.** -/
theorem forall_admits_iff : (∀ k ∈ ks, Admits cap ks k) ↔ ks.toFinset.card ≤ cap := by
  constructor
  · intro h
    by_contra hc
    obtain ⟨k, hk, hn⟩ := exists_not_admits (Nat.lt_of_not_le hc)
    exact hn (h k hk)
  · exact fun hc k hk => admits_of_card_le hc hk

end Admission

/-! ### The map -/

/-- A map that holds at most `cap` keys. -/
structure Bounded (κ ν : Type*) (cap : ℕ) where
  map : AList fun _ : κ => ν
  bounded : map.keys.length ≤ cap

namespace Bounded

variable {cap : ℕ}

def empty : Bounded κ ν cap := ⟨∅, Nat.zero_le _⟩

def lookup (m : Bounded κ ν cap) (k : κ) : Option ν := m.map.lookup k

/-- Room for the key: it is held already, or the map is not full. -/
def Fits (m : Bounded κ ν cap) (k : κ) : Prop := k ∈ m.map ∨ m.map.keys.length < cap

instance (m : Bounded κ ν cap) (k : κ) : Decidable (m.Fits k) := by unfold Fits; infer_instance

theorem length_insert_of_mem {m : AList fun _ : κ => ν} {k : κ} (h : k ∈ m) (v : ν) :
    (m.insert k v).keys.length = m.keys.length := by
  rw [AList.keys_insert, List.length_cons, List.length_erase_of_mem (AList.mem_keys.mp h)]
  have := List.length_pos_of_mem (AList.mem_keys.mp h)
  omega

theorem length_insert_of_notMem {m : AList fun _ : κ => ν} {k : κ} (h : k ∉ m) (v : ν) :
    (m.insert k v).keys.length = m.keys.length + 1 := by
  rw [AList.keys_insert, List.length_cons,
    List.erase_of_not_mem fun hk => h (AList.mem_keys.mpr hk)]

theorem length_insert_le {m : Bounded κ ν cap} {k : κ} (h : m.Fits k) (v : ν) :
    (m.map.insert k v).keys.length ≤ cap := by
  by_cases hk : k ∈ m.map
  · rw [length_insert_of_mem hk]
    exact m.bounded
  · rw [length_insert_of_notMem hk]
    exact h.resolve_left hk

/-- Sets the value of a key; fails on a new key when the map is full. -/
def update (m : Bounded κ ν cap) (k : κ) (v : ν) : Option (Bounded κ ν cap) :=
  if h : m.Fits k then some ⟨m.map.insert k v, length_insert_le h v⟩ else none

/-- The updates of a list in order, skipping those that fail. -/
def updateAll (m : Bounded κ ν cap) : List (κ × ν) → Bounded κ ν cap
  | [] => m
  | p :: l => ((m.update p.1 p.2).getD m).updateAll l

theorem updateAll_append (m : Bounded κ ν cap) : ∀ l l' : List (κ × ν),
    m.updateAll (l ++ l') = (m.updateAll l).updateAll l'
  | [], _ => rfl
  | p :: l, l' => updateAll_append ((m.update p.1 p.2).getD m) l l'

theorem updateAll_concat (m : Bounded κ ν cap) (l : List (κ × ν)) (p : κ × ν) :
    m.updateAll (l ++ [p]) = ((m.updateAll l).update p.1 p.2).getD (m.updateAll l) :=
  updateAll_append m l [p]

theorem update_eq_none {m : Bounded κ ν cap} {k : κ} {v : ν} :
    m.update k v = none ↔ ¬ m.Fits k := by
  unfold update
  split_ifs with h <;> simp [h]

theorem update_of_fits {m : Bounded κ ν cap} {k : κ} (h : m.Fits k) {v : ν} :
    m.update k v = some ⟨m.map.insert k v, length_insert_le h v⟩ := dif_pos h

/-- **One update** changes at most its own key. -/
theorem lookup_update {m : Bounded κ ν cap} {k : κ} {v : ν} (x : κ) :
    ((m.update k v).getD m).lookup x = if k = x ∧ m.Fits k then some v else m.lookup x := by
  unfold update lookup
  by_cases h : m.Fits k
  · rw [dif_pos h, Option.getD_some]
    by_cases hk : k = x
    · subst hk
      rw [if_pos ⟨rfl, h⟩, AList.lookup_insert]
    · rw [if_neg fun hc => hk hc.1, AList.lookup_insert_ne (Ne.symm hk)]
  · rw [dif_neg h, Option.getD_none, if_neg fun hc => h hc.2]

theorem mem_map_iff {m : Bounded κ ν cap} {k : κ} : k ∈ m.map ↔ m.lookup k ≠ none := by
  rw [lookup, Ne, AList.lookup_eq_none, not_not]

/-- What the updates of `l` leave in an empty map: the admitted keys with their last values, and as
many keys as fit. -/
structure Holds (m : Bounded κ ν cap) (l : List (κ × ν)) : Prop where
  lookup : ∀ k, m.lookup k = if Admits cap (l.map Prod.fst) k then lastVal k l else none
  size : m.map.keys.length = min cap (l.map Prod.fst).toFinset.card

theorem Holds.mem_iff {m : Bounded κ ν cap} {l : List (κ × ν)} (h : m.Holds l) {k : κ} :
    k ∈ m.map ↔ Admits cap (l.map Prod.fst) k := by
  rw [mem_map_iff, h.lookup]
  by_cases ha : Admits cap (l.map Prod.fst) k
  · rw [if_pos ha]
    exact iff_of_true (fun hn => lastVal_eq_none.mp hn ha.1) ha
  · rw [if_neg ha]
    exact iff_of_false (fun hn => hn rfl) ha

section Concat
variable {m : Bounded κ ν cap} {l : List (κ × ν)}

/-- A key that was not admitted finds the map full. -/
theorem Holds.not_fits (h : m.Holds l) {k : κ} (hk : k ∈ l.map Prod.fst)
    (ha : ¬ Admits cap (l.map Prod.fst) k) : ¬ m.Fits k := by
  have hsize := h.size
  rintro (hin | hlt)
  · exact ha (h.mem_iff.mp hin)
  · exact ha (admits_of_card_le (by omega) hk)

/-- A new key fits while fewer than `cap` keys have occurred. -/
theorem Holds.fits_iff (h : m.Holds l) {k : κ} (hk : k ∉ l.map Prod.fst) :
    m.Fits k ↔ (l.map Prod.fst).toFinset.card < cap := by
  have hsize := h.size
  have hnot : k ∉ m.map := fun hin => hk (h.mem_iff.mp hin).1
  simp only [Fits, hnot, false_or]
  omega

theorem Holds.lookup_concat (h : m.Holds l) (p : κ × ν) (k : κ) :
    ((m.update p.1 p.2).getD m).lookup k =
      if Admits cap (l.map Prod.fst ++ [p.1]) k then lastVal k (l ++ [p]) else none := by
  rw [lookup_update, lastVal_concat, h.lookup]
  by_cases hk : k ∈ l.map Prod.fst
  · simp only [admits_append_of_mem hk]
    by_cases hp : p.1 = k
    · subst hp
      by_cases ha : Admits cap (l.map Prod.fst) p.1
      · rw [if_pos ⟨rfl, Or.inl (h.mem_iff.mpr ha)⟩, if_pos ha, if_pos rfl]
      · rw [if_neg fun hc => h.not_fits hk ha hc.2, if_neg ha, if_neg ha]
    · rw [if_neg fun hc => hp hc.1, if_neg hp]
  · rw [if_neg fun ha : Admits cap (l.map Prod.fst) k => hk ha.1]
    by_cases hp : p.1 = k
    · subst hp
      simp only [admits_concat_self hk, true_and, if_true, h.fits_iff hk]
    · rw [if_neg fun hc => hp hc.1, if_neg fun ha => ?_]
      rcases List.mem_append.mp ha.1 with hc | hc
      · exact hk hc
      · exact hp (List.mem_singleton.mp hc).symm

theorem Holds.size_concat (h : m.Holds l) (p : κ × ν) :
    ((m.update p.1 p.2).getD m).map.keys.length =
      min cap (l.map Prod.fst ++ [p.1]).toFinset.card := by
  have hsize := h.size
  by_cases hin : p.1 ∈ m.map
  · rw [update_of_fits (Or.inl hin), Option.getD_some, length_insert_of_mem hin,
      card_toFinset_concat_of_mem (h.mem_iff.mp hin).1, hsize]
  · by_cases hlt : m.map.keys.length < cap
    · have hk : p.1 ∉ l.map Prod.fst := fun hk =>
        hin (h.mem_iff.mpr (admits_of_card_le (by omega) hk))
      rw [update_of_fits (Or.inr hlt), Option.getD_some, length_insert_of_notMem hin,
        card_toFinset_concat_of_notMem hk]
      omega
    · have hle : (l.map Prod.fst).toFinset.card ≤ (l.map Prod.fst ++ [p.1]).toFinset.card :=
        Finset.card_le_card fun x hx => by
          simp only [List.mem_toFinset, List.mem_append] at hx ⊢
          exact Or.inl hx
      rw [update_eq_none.mpr (not_or.mpr ⟨hin, hlt⟩), Option.getD_none]
      omega

end Concat

/-- **Updating an empty map** with a list. -/
theorem holds_updateAll (l : List (κ × ν)) : (empty.updateAll l : Bounded κ ν cap).Holds l := by
  induction l using List.reverseRecOn with
  | nil => exact ⟨fun k => by simp [updateAll, lookup, empty], by simp [updateAll, empty]⟩
  | append_singleton l p ih =>
    rw [updateAll_concat]
    exact ⟨fun k => by rw [List.map_append]; exact ih.lookup_concat p k,
      by rw [List.map_append]; exact ih.size_concat p⟩

theorem lookup_updateAll (l : List (κ × ν)) (k : κ) :
    (empty.updateAll l : Bounded κ ν cap).lookup k =
      if Admits cap (l.map Prod.fst) k then lastVal k l else none :=
  (holds_updateAll l).lookup k

end Bounded

end Magm.Lib.BoundedMap
